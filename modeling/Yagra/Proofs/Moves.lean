import Yagra.Proofs.Atoms

/-!
# `Yagra.Proofs.Moves`: what the engine does to one check

A check's alert enters and leaves the active set on many paths. `Move` lists what can happen
to the alert of one check in one go, together with the actions emitted for it: it is opened
and announced, opened and held back, closed, dropped while still held, fired again, moved to
another root cause, or rolled up. `Path` is a sequence of moves. `Moves` and `Paths` say that
every check made a move, or went along a path, from one state of the engine to another.

`atom_effect` is the one result about the engine: every atomic step is a move at every check,
and it keeps the engine `Consistent`. What holds of the actions of a check along any run is
then a property of paths, and its proof does not look at the engine again.

An alert only enters a slot as `Opens` describes. A move that opens one carries a predicate `P`
of the slot's content before and the new alert. A condition on the steps of a run becomes such
a predicate.
-/

set_option autoImplicit false

namespace Yagra

open Yagra.Lib Function AlertManager List Raised

/-- The content of the slot of check `c` is filed as `SlotOk` says. -/
def Filed (c : CheckId) (b : Option Alert) : Prop := ∀ a, b = some a → SlotOk c a

/-- One change of the alert of check `c` together with the actions emitted for it. -/
inductive Move (P : Option Alert → Alert → Prop) (c : CheckId) :
    Option Alert → List NotifyAction → Option Alert → Prop
  | stay (b : Option Alert) : Move P c b [] b
  | opened {b : Option Alert} {a : Alert} (hp : P b a) (hok : SlotOk c a)
      (hh : a.notifyHeldUntil = none) : Move P c b [.fire a] (some a)
  | holding {b : Option Alert} {a : Alert} (hp : P b a) (hok : SlotOk c a)
      (hh : a.notifyHeldUntil.isSome) : Move P c b [] (some a)
  | closed {a : Alert} (hh : a.notifyHeldUntil = none) : Move P c (some a) [.resolve a] none
  | dropped {a : Alert} (hh : a.notifyHeldUntil.isSome) : Move P c (some a) [] none
  /-- The alert is fired again: with the other side's breach, or as it loses its root cause, or
  as its held notification ends. An announced alert of its own stays one. -/
  | refired {a a' : Alert} (hs : SameIncident a a') (hh : a'.notifyHeldUntil = none)
      (hr : a.notifyHeldUntil = none → a.rootCause = none → a'.rootCause = none) :
      Move P c (some a) [.fire a'] (some a')
  /-- An alert with a root cause gets another one, or silently loses it. -/
  | retagged {a a' : Alert} (hs : SameIncident a a') (hroot : a.rootCause.isSome)
      (hh : a'.notifyHeldUntil = a.notifyHeldUntil) : Move P c (some a) [] (some a')
  | suppressed {a a' : Alert} (hs : SameIncident a a') (hh : a.notifyHeldUntil = none)
      (hh' : a'.notifyHeldUntil = none) (hroot : a.rootCause = none)
      (hroot' : a'.rootCause.isSome) : Move P c (some a) [.suppress a'] (some a')

namespace Move

variable {P : Option Alert → Alert → Prop} {c : CheckId} {b b' : Option Alert}
  {acts : List NotifyAction}

/-- A move keeps the slot well filed. -/
theorem filed (h : Move P c b acts b') (hb : Filed c b) : Filed c b' := by
  intro x hx
  cases h with
  | stay => exact hb x hx
  | opened hp hok hh | holding hp hok hh =>
    cases hx
    exact hok
  | closed hh => simp at hx
  | dropped hh => simp at hx
  | refired hs hh hr =>
    cases hx
    exact (hb _ rfl).of_sameIncident hs (.inl hh)
  | retagged hs hroot hh =>
    cases hx
    exact (hb _ rfl).of_sameIncident hs (.inl (hh.trans ((hb _ rfl).not_held (.inl hroot))))
  | suppressed hs hh hh' hroot hroot' =>
    cases hx
    exact (hb _ rfl).of_sameIncident hs (.inl hh')

/-- The actions of a move are about its check. -/
theorem check_eq (h : Move P c b acts b') (hb : Filed c b) : ∀ x ∈ acts, x.check = c := by
  intro x hx
  cases h with
  | stay | holding hp hok hh | dropped hh | retagged hs hroot hh => cases hx
  | opened hp hok hh =>
    rw [mem_singleton.1 hx]
    exact hok.check
  | closed hh =>
    rw [mem_singleton.1 hx]
    exact (hb _ rfl).check
  | refired hs hh hr | suppressed hs hh hh' hroot hroot' =>
    rw [mem_singleton.1 hx]
    exact hs.check.trans (hb _ rfl).check

/-- A move emits at most one action. -/
theorem length_le (h : Move P c b acts b') : acts.length ≤ 1 := by
  cases h <;> simp

end Move

/-- A sequence of moves, with their actions one after the other. -/
inductive Path (P : Option Alert → Alert → Prop) (c : CheckId) :
    Option Alert → List NotifyAction → Option Alert → Prop
  | refl (b : Option Alert) : Path P c b [] b
  | step {b b' b'' : Option Alert} {acts acts' : List NotifyAction} :
      Move P c b acts b' → Path P c b' acts' b'' → Path P c b (acts ++ acts') b''

namespace Path

variable {P : Option Alert → Alert → Prop} {c : CheckId} {b b' b'' : Option Alert}
  {acts acts' : List NotifyAction}

theorem trans (h : Path P c b acts b') (h' : Path P c b' acts' b'') :
    Path P c b (acts ++ acts') b'' := by
  induction h with
  | refl b => exact h'
  | step hm _ ih =>
    rw [append_assoc]
    exact .step hm (ih h')

/-- The rule for what the actions of a path are folded into: a relation between the slot and
the result that every move keeps holds at the end of the path. -/
theorem foldl {σ : Type} {f : σ → NotifyAction → σ} {J : Option Alert → σ → Prop}
    (hstep : ∀ b acts b' st, Move P c b acts b' → Filed c b → J b st → J b' (acts.foldl f st))
    (h : Path P c b acts b') (hb : Filed c b) {x : σ} (hj : J b x) :
    J b' (acts.foldl f x) := by
  induction h generalizing x with
  | refl b => exact hj
  | step hm _ ih =>
    rw [foldl_append]
    exact ih (hm.filed hb) (hstep _ _ _ x hm hb hj)

end Path

/-! ### Moves at every check -/

/-- Every check made at most one move from one state to the other, with the actions about
it. -/
def Moves (P : Option Alert → Alert → Prop) (s : AlertManager) (acts : List NotifyAction)
    (s' : AlertManager) : Prop :=
  ∀ c, Move P c (s.active c) (acts.filter fun x => x.check = c) (s'.active c)

/-- Every check went along a path from one state to the other, with the actions about it. -/
def Paths (P : Option Alert → Alert → Prop) (s : AlertManager) (acts : List NotifyAction)
    (s' : AlertManager) : Prop :=
  ∀ c, Path P c (s.active c) (acts.filter fun x => x.check = c) (s'.active c)

variable {P : Option Alert → Alert → Prop} {s s' s'' : AlertManager}
  {acts acts' : List NotifyAction}

theorem Moves.of_active_eq (h : s'.active = s.active) : Moves P s [] s' := by
  intro c
  rw [h]
  exact .stay _

theorem Moves.wellFormed (h : Moves P s acts s') (hw : s.WellFormed) : s'.WellFormed :=
  fun c => (h c).filed (hw c)

/-- A move of one check, with the actions of that check and no others. -/
theorem Moves.of_update {c : CheckId} {b : Option Alert} (hw : s.WellFormed)
    (hactive : s'.active = update s.active c b) (h : Move P c (s.active c) acts b) :
    Moves P s acts s' := by
  have hcheck := h.check_eq (hw c)
  intro d
  by_cases hd : d = c
  · subst hd
    have hall : acts.filter (fun x => x.check = d) = acts :=
      filter_eq_self.2 fun x hx => by simp [hcheck x hx]
    rw [hall, hactive, update_self]
    exact h
  · have hnone : acts.filter (fun x => x.check = d) = [] :=
      filter_eq_nil_iff.2 fun x hx => by simp [hcheck x hx, Ne.symm hd]
    rw [hnone, hactive, update_of_ne hd]
    exact .stay _

theorem Paths.refl (h : s'.active = s.active) : Paths P s [] s' := by
  intro c
  rw [h]
  exact .refl _

theorem Paths.cons (h : Moves P s acts s') (h' : Paths P s' acts' s'') :
    Paths P s (acts ++ acts') s'' := by
  intro c
  rw [filter_append]
  exact .step (h c) (h' c)

theorem Paths.trans (h : Paths P s acts s') (h' : Paths P s' acts' s'') :
    Paths P s (acts ++ acts') s'' := by
  intro c
  rw [filter_append]
  exact (h c).trans (h' c)

/-! ### What the steps of the engine promise -/

/-- What an observation's descriptor promises: a liveness check of the node, in one of the
states a poll outcome means, or a threshold check, in one of the states a value is judged to
be in. -/
inductive SpecOk (node : NodeId) (raw : NodeState) (spec : CheckSpec) : Prop
  | liveness (hl : spec.isLiveness = true) (hc : spec.check = livenessCheck node)
      (hm : spec.metric = .liveness) (he : spec.eval = none)
      (hraw : raw = .ok ∨ raw = .unreachable ∨ raw = .unknown ∨ raw = .maintenance)
  | threshold (hl : spec.isLiveness = false) (ha : spec.alerting = true) (m : Metric)
      (hs : spec.check.subject = .node node) (hn : spec.check.name = .metric m)
      (hm : spec.metric = .metric m)
      (hraw : raw = .ok ∨ raw = .warning ∨ raw = .critical ∨ raw = .maintenance)

theorem SpecOk.of_isLiveness {node : NodeId} {raw : NodeState} {spec : CheckSpec}
    (h : SpecOk node raw spec) (hl : spec.isLiveness = true) :
    spec.check = livenessCheck node ∧ spec.eval = none := by
  cases h with
  | liveness _ hc _ he _ => exact ⟨hc, he⟩
  | threshold hl' _ _ _ _ _ _ => simp [hl] at hl'

/-- What a step promises in the state it is taken in. The order of a loop lists the keys of
the map it goes over. -/
def AtomOk (s : AlertManager) : Atom → Prop
  | .check order node raw _ spec =>
    SpecOk node raw spec ∧ (spec.isLiveness = true → Enumerates order s.active)
  | .regroup order => Enumerates order s.active
  | .releaseHeld _ order => Enumerates order s.held
  | .raise a => ∃ raised : Raised, a = raised.alert
  | .setConfig config => config.loaded = true
  | _ => True

/-- The alerts a step may put into a slot: that of a committed state with a severity, or one
another component raises over none of its severity. A new alert is only held back at the
commit of an outage, while the grouping waits and the node is grouped. -/
inductive Opens (s : AlertManager) : Atom → CheckId → Alert → Prop
  | transition {order : List CheckId} {node : NodeId} {raw : NodeState} {t : UnixMs}
      {spec : CheckSpec} {tr : Transition} {a : Alert} (halerting : spec.alerting = true)
      (hcheck : a.check = spec.check)
      (htr : s.transitionOf raw t spec = some tr) (hsev : tr.state.severity = some a.severity)
      (hstate : a.state = tr.state)
      (hheld : a.notifyHeldUntil.isSome → spec.isLiveness = true ∧ a.state = .unreachable ∧
        s.config.groupingWait = true ∧ s.config.grouping.levelOf node ≠ .off) :
      Opens s (.check order node raw t spec) spec.check a
  | raised {a : Alert} (hsev : ∀ b, s.active a.check = some b → b.severity ≠ a.severity)
      (hheld : a.notifyHeldUntil = none) : Opens s (.raise a) a.check a

namespace AlertManager

/-- What holds of every state the engine reaches: alerts are filed under their own checks, a
held entry is what its alert says, only a loaded configuration makes a notification wait, and
the alert of a held one is that of a check committed unreachable. -/
structure Consistent (s : AlertManager) : Prop where
  slots : s.WellFormed
  held : ∀ c, s.held c = (s.active c).bind Alert.notifyHeldUntil
  loaded : s.config.groupingWait = true → s.config.loaded = true
  waiting : ∀ c a, s.active c = some a → a.notifyHeldUntil.isSome → s.config.loaded = true ∧
    a.state = .unreachable ∧ ∃ cs, s.states c = some cs ∧ cs.committed = .unreachable

theorem consistent_fresh : fresh.Consistent where
  slots := wellFormed_fresh
  held := fun _ => rfl
  loaded := by simp [fresh, AlertConfig.default]
  waiting := by
    intro c a h
    simp [fresh] at h

variable {a : Alert} {c : CheckId} {spec : CheckSpec} {order : List CheckId} {node : NodeId}
  {raw : NodeState} {b : Option Alert} {t : UnixMs}

/-- A step that changes the entries of one check keeps the engine consistent when they are
consistent after it. -/
theorem Consistent.of_update (hs : s.Consistent)
    (hactive : s'.active = update s.active c b) (hfiled : Filed c b)
    (hheld : s'.held = update s.held c (b.bind Alert.notifyHeldUntil))
    (hconfig : s'.config = s.config) (hstates : ∀ d, d ≠ c → s'.states d = s.states d)
    (hwait : ∀ a, b = some a → a.notifyHeldUntil.isSome → s.config.loaded = true ∧
      a.state = .unreachable ∧ ∃ cs, s'.states c = some cs ∧ cs.committed = .unreachable) :
    s'.Consistent where
  slots := by
    intro d a ha
    rw [hactive] at ha
    by_cases hd : d = c
    · subst hd
      exact hfiled a (by simpa using ha)
    · exact hs.slots d a (by simpa [hd] using ha)
  held := by
    intro d
    rw [hactive, hheld]
    by_cases hd : d = c
    · simp [hd]
    · simp [hd, hs.held d]
  loaded := by
    rw [hconfig]
    exact hs.loaded
  waiting := by
    intro d a ha hh
    rw [hactive] at ha
    rw [hconfig]
    by_cases hd : d = c
    · subst hd
      exact hwait a (by simpa using ha) hh
    · rw [hstates d hd]
      exact hs.waiting d a (by simpa [hd] using ha) hh

/-! ### Closing -/

/-- Closing a check moves it to the empty slot. -/
theorem closeActive_move (hb : s.active c = b) : Move P c b (s.closeActive c).2 none := by
  subst hb
  rcases s.closeActive_cases c with ⟨ha, he⟩ | ⟨a, ha, hh, he⟩ | ⟨a, u, ha, hh, he⟩ <;>
    rw [he, ha]
  · exact .stay none
  · exact .closed hh
  · exact .dropped (by simp [hh])

/-- Closing a check leaves no held entry of it. -/
theorem closeActive_held (h : s.held c = (s.active c).bind Alert.notifyHeldUntil) :
    (s.closeActive c).1.held = update s.held c none := by
  rcases s.closeActive_cases c with ⟨ha, he⟩ | ⟨a, ha, hh, he⟩ | ⟨a, u, ha, hh, he⟩ <;> rw [he]
  · exact (update_of_apply_eq (by simpa [ha] using h)).symm
  · exact (update_of_apply_eq (by simpa [ha, hh] using h)).symm

/-- Closing a check is a move, whatever is then forgotten about its state. -/
theorem close_effect (hs : s.Consistent)
    (hclose : s' = { (s.closeActive c).1 with states := s'.states })
    (hstates : ∀ d, d ≠ c → s'.states d = s.states d) :
    Moves P s (s.closeActive c).2 s' ∧ s'.Consistent := by
  have hactive : s'.active = update s.active c none := by
    rw [hclose]
    exact s.closeActive_active c
  refine ⟨.of_update hs.slots hactive (closeActive_move rfl), ?_⟩
  refine hs.of_update hactive (by simp [Filed]) ?_ ?_ hstates (by simp)
  · rw [hclose]
    exact closeActive_held (hs.held c)
  · rw [hclose, closeActive_frame]

/-! ### One observation -/

/-- A held notification belongs to a liveness check, which no threshold sample observes. -/
theorem Consistent.held_none_of_threshold (hs : s.Consistent) {m : Metric}
    (hname : c.name = .metric m) (ha : s.active c = some a) : a.notifyHeldUntil = none :=
  (hs.slots c a ha).not_held (.inr (by simp [hname]))

/-- A held notification is not fired by an observation without a transition: such a fire needs
a threshold sample or a root cause. -/
theorem Consistent.not_held_of_refresh (hs : s.Consistent) (hspec : SpecOk node raw spec)
    (ha : s.active spec.check = some a) (hwhy : spec.eval.isSome ∨ a.rootCause.isSome) :
    a.notifyHeldUntil = none := by
  cases hspec with
  | liveness _ _ _ he _ =>
    exact (hs.slots _ a ha).not_held (.inl (by simpa [he] using hwhy))
  | threshold _ _ m _ hn _ _ => exact hs.held_none_of_threshold hn ha

/-- A transition to a state of a severity does not meet a held notification: its check is
committed unreachable already, and no other state of a poll outcome has a severity. -/
theorem Consistent.not_held_of_transition (hs : s.Consistent) (hspec : SpecOk node raw spec)
    {tr : Transition} (htr : s.transitionOf raw t spec = some tr) {severity : Severity}
    (hsev : tr.state.severity = some severity) (ha : s.active spec.check = some a) :
    a.notifyHeldUntil = none := by
  obtain ⟨hstate, hne, _, _⟩ := transitionOf_some htr
  cases hspec with
  | liveness _ _ _ _ hraw =>
    by_contra hheld
    obtain ⟨_, _, cs, hcs, hcommitted⟩ :=
      hs.waiting _ a ha (Option.ne_none_iff_isSome.1 hheld)
    rw [committedAt_of_states hcs, hcommitted] at hne
    rw [hstate] at hsev
    rcases hraw with rfl | rfl | rfl | rfl <;> simp [NodeState.severity] at hsev hne
  | threshold _ _ m _ hn _ _ => exact hs.held_none_of_threshold hn ha

/-- The alert of a transition is filed under its check. -/
theorem alertFor_slotOk (s : AlertManager) (hspec : SpecOk node raw spec) (t : UnixMs)
    (tr : Transition) (severity : Severity) :
    SlotOk spec.check (s.alertFor node t spec tr severity) := by
  cases hspec with
  | liveness _ hc hm _ _ =>
    exact ⟨rfl, by rw [hc]; rfl, by simp [alertFor, hm, hc, checkId, subjectCheckId],
      fun _ => ⟨node, hc⟩, by simp [alertFor]⟩
  | threshold _ _ m hs hn hm _ =>
    exact ⟨rfl, hs.symm, by simp [alertFor, hm, hn], by simp [hn], by simp [alertFor]⟩

/-- An outcome that moves the state of check `c` and moves its slot. -/
structure CheckEffect (P : Option Alert → Alert → Prop) (s : AlertManager) (c : CheckId)
    (next : CheckState) (r : Outcome) : Prop where
  moves : Moves P s r.2 r.1
  consistent : r.1.Consistent
  active_of_ne : ∀ d, d ≠ c → r.1.active d = s.active d
  quiet : ∀ d, d ≠ c → r.2.filter (fun x => x.check = d) = []
  states : r.1.states = update s.states c (some next)

theorem CheckEffect.of_slot (hs : s.Consistent) {next : CheckState} {r : Outcome}
    (hactive : r.1.active = update s.active c b)
    (hheld : r.1.held = update s.held c (b.bind Alert.notifyHeldUntil))
    (hconfig : r.1.config = s.config)
    (hstates : r.1.states = update s.states c (some next))
    (hmove : Move P c (s.active c) r.2 b)
    (hwait : ∀ a, b = some a → a.notifyHeldUntil.isSome → s.config.loaded = true ∧
      a.state = .unreachable ∧ next.committed = .unreachable) :
    CheckEffect P s c next r where
  moves := .of_update hs.slots hactive hmove
  consistent := by
    refine hs.of_update hactive (hmove.filed (hs.slots c)) hheld hconfig ?_ ?_
    · intro d hd
      rw [hstates, update_of_ne hd]
    · intro a ha hh
      obtain ⟨hl, hst, hc⟩ := hwait a ha hh
      exact ⟨hl, hst, next, by rw [hstates, update_self], hc⟩
  active_of_ne := by
    intro d hd
    rw [hactive, update_of_ne hd]
  quiet := by
    intro d hd
    refine filter_eq_nil_iff.2 fun x hx => ?_
    simp [hmove.check_eq (hs.slots c) x hx, Ne.symm hd]
  states := hstates

section
variable {s : AlertManager} {node : NodeId} {raw : NodeState} {t : UnixMs} {spec : CheckSpec}

/-- The slot keeps a held notification only while the check stays committed unreachable. -/
theorem Consistent.waiting_of_no_transition (hs : s.Consistent)
    (htr : s.transitionOf raw t spec = none) :
    ∀ a, s.active spec.check = some a → a.notifyHeldUntil.isSome → s.config.loaded = true ∧
      a.state = .unreachable ∧ (s.nextState raw t spec).committed = .unreachable := by
  intro a ha hh
  obtain ⟨hl, hst, cs, hcs, hc⟩ := hs.waiting _ a ha hh
  exact ⟨hl, hst, by rw [transitionOf_none htr, committedAt_of_states hcs, hc]⟩

theorem withoutRule_effect (hs : s.Consistent) :
    CheckEffect P s spec.check (s.nextState raw t spec)
      ((s.trackSample node raw t spec).1.withoutRule spec.check) := by
  rw [trackSample_frame]
  unfold withoutRule
  split
  · refine .of_slot hs (b := none) ?_ ?_ ?_ ?_ (closeActive_move (by rfl)) (by simp)
    · rw [closeActive_active]
    · exact closeActive_held (hs.held spec.check)
    · rw [closeActive_frame]
    · rw [closeActive_states]
  next hl =>
    refine .of_slot hs (b := s.active spec.check) ?_ ?_ rfl rfl (.stay _) ?_
    · rw [update_eq_self]
    · rw [← hs.held, update_eq_self]
    · intro a ha hh
      exact absurd (hs.waiting _ a ha hh).1 hl

section

variable (hs : s.Consistent) (hspec : SpecOk node raw spec)

include hs hspec

theorem withoutTransition_effect (htr : s.transitionOf raw t spec = none) :
    CheckEffect P s spec.check (s.nextState raw t spec)
      ((s.trackSample node raw t spec).1.withoutTransition raw t spec) := by
  rw [trackSample_frame]
  generalize (s.trackSample node raw t spec).1.live = live
  generalize (s.trackSample node raw t spec).1.down = down
  rcases withoutTransition_cases { s with
      states := update s.states spec.check (some (s.nextState raw t spec))
      live := live
      down := down } raw t spec hs.slots with
    ⟨side, release, he, _⟩ | ⟨a, a', side, release, ha, href, hwhy, he, _⟩ <;> rw [he]
  · refine .of_slot hs (b := s.active spec.check) rfl ?_ rfl rfl (.stay _)
      (hs.waiting_of_no_transition htr)
    rw [← hs.held, update_eq_self]
    rfl
  · have hh : a.notifyHeldUntil = none := hs.not_held_of_refresh hspec ha hwhy
    have hh' : a'.notifyHeldUntil = none := href.held.trans hh
    refine .of_slot hs (b := some a') rfl ?_ rfl rfl ?_ ?_
    · refine (update_of_apply_eq ?_).symm
      show s.held spec.check = _
      rw [hs.held, ha]
      exact hh.trans hh'.symm
    · rw [ha]
      refine .refired href.same hh' ?_
      intro _ hroot
      exact href.root.elim (fun h => h.trans hroot) id
    · intro b hb hsome
      cases hb
      simp [hh'] at hsome

theorem onTransition_effect {tr : Transition} (htr : s.transitionOf raw t spec = some tr)
    (hP : ∀ a : Alert, a.check = spec.check → tr.state.severity = some a.severity →
    a.state = tr.state →
    (a.notifyHeldUntil.isSome → spec.isLiveness = true ∧ a.state = .unreachable ∧
    s.config.groupingWait = true ∧ s.config.grouping.levelOf node ≠ .off) →
    P (s.active spec.check) a) :
    CheckEffect P s spec.check (s.nextState raw t spec)
      ((s.trackSample node raw t spec).1.onTransition node raw t spec tr) := by
  rw [trackSample_frame]
  generalize (s.trackSample node raw t spec).1.live = live
  generalize (s.trackSample node raw t spec).1.down = down
  obtain ⟨hstate, _, hcommitted, _⟩ := transitionOf_some htr
  rcases onTransition_cases { s with
      states := update s.states spec.check (some (s.nextState raw t spec))
      live := live
      down := down } node raw t spec tr with
    ⟨_, he⟩ | ⟨severity, hsev, he⟩ | ⟨severity, u, hsev, hl, hhold, he⟩ <;> rw [he]
  · refine .of_slot hs (b := none) ?_ ?_ ?_ ?_ ?_ (by simp)
    · rw [closeActive_active]
      simp [settled, withEntries]
    · exact closeActive_held (by simpa [settled, withEntries] using hs.held spec.check)
    · rw [closeActive_frame]
      rfl
    · rw [closeActive_states]
      rfl
    · exact closeActive_move (by simp [settled])
  · -- A fire replaces no held notification, so the held entries stay as they are.
    refine .of_slot hs rfl ?_ rfl rfl (.opened ?_ (alertFor_slotOk _ hspec _ _ _) rfl) ?_
    · refine (update_of_apply_eq ?_).symm
      show s.held spec.check = _
      rw [hs.held]
      cases ha : s.active spec.check with
      | none => rfl
      | some a => exact hs.not_held_of_transition hspec htr hsev ha
    · exact hP _ rfl hsev rfl (by simp [alertFor])
    · intro a ha hh
      cases ha
      simp [alertFor] at hh
  · obtain ⟨hroot, hunreachable, hwait, hlevel, _⟩ := holdUntil_some hhold
    refine .of_slot hs rfl rfl rfl rfl (.holding ?_ ?_ rfl) ?_
    · exact hP _ rfl hsev rfl fun _ => ⟨hl, hunreachable, hwait, hlevel⟩
    · obtain ⟨hc, hsub, hlive, hshape, _⟩ := alertFor_slotOk { s with
        states := update s.states spec.check (some (s.nextState raw t spec))
        live := live
        down := down } hspec t tr severity
      refine ⟨hc, hsub, hlive, hshape, fun _ => ⟨hroot, ?_⟩⟩
      rw [(hspec.of_isLiveness hl).1]
      rfl
    · intro a ha _
      cases ha
      refine ⟨hs.loaded hwait, hunreachable, ?_⟩
      rw [hcommitted, ← hstate]
      exact hunreachable

/-- What an observation does to its own check, before the other alerts are re-attributed. -/
theorem checkCore_effect
    (hP : ∀ a, Opens s (.check order node raw t spec) spec.check a → P (s.active spec.check) a) :
    CheckEffect P s spec.check (s.nextState raw t spec) (s.checkCore node raw t spec) := by
  unfold checkCore
  split
  · exact withoutRule_effect hs
  next halerting =>
    cases htr : s.transitionOf raw t spec with
    | none => exact withoutTransition_effect hs hspec htr
    | some tr =>
      refine onTransition_effect hs hspec htr fun a hcheck hsev hstate hheld => ?_
      exact hP a (.transition (by simpa using halerting) hcheck htr hsev hstate hheld)

theorem checkCore_any :
    CheckEffect (fun _ _ => True) s spec.check (s.nextState raw t spec)
      (s.checkCore node raw t spec) :=
  checkCore_effect hs hspec fun _ (_ : Opens s (.check [] node raw t spec) spec.check _) => trivial

end

end

/-! ### The loops -/

/-- What a loop leaves at a check is reached by one move, with the held entry in step, and a
notification left held is an alert left as it was. -/
structure SlotEffect (P : Option Alert → Alert → Prop) (c : CheckId) (before : Option Alert)
    (r : Slot × List NotifyAction) : Prop where
  move : Move P c before r.2 r.1.alert
  held : r.1.held = r.1.alert.bind Alert.notifyHeldUntil
  keep : ∀ a, r.1.alert = some a → a.notifyHeldUntil.isSome → before = some a

theorem SlotEffect.same (hs : s.Consistent) (c : CheckId) :
    SlotEffect P c (s.active c) (s.slot c, []) :=
  ⟨.stay _, hs.held c, fun _ h _ => h⟩

/-- A loop over the alerts with such an effect at every check is a move at every check. -/
theorem effect_of_slots (hs : s.Consistent) {r : CheckId → Slot × List NotifyAction}
    (hrest : s'.rest = s.rest)
    (hat : ∀ c, s'.slot c = (r c).1 ∧ acts.filter (fun x => x.check = c) = (r c).2)
    (hr : ∀ c, SlotEffect P c (s.active c) (r c)) : Moves P s acts s' ∧ s'.Consistent := by
  have hactive : ∀ c, s'.active c = (r c).1.alert := fun c => active_of_slot (hat c).1
  have hheld : ∀ c, s'.held c = (r c).1.held := fun c => congrArg Slot.held (hat c).1
  have hconfig : s'.config = s.config := by
    have h := congrArg config hrest
    exact h
  have hstates : s'.states = s.states := by
    have h := congrArg states hrest
    exact h
  have hmoves : Moves P s acts s' := by
    intro c
    rw [(hat c).2, hactive]
    exact (hr c).move
  refine ⟨hmoves, hmoves.wellFormed hs.slots, ?_, ?_, ?_⟩
  · intro c
    rw [hheld, hactive]
    exact (hr c).held
  · rw [hconfig]
    exact hs.loaded
  · intro c a ha hh
    rw [hactive] at ha
    rw [hconfig, hstates]
    exact hs.waiting c a ((hr c).keep a ha hh) hh

/-- What re-attribution does to one alert is at most one move, and a notification it leaves
held is the alert as it was. -/
theorem reattributed_effect (hok : SlotOk c a) (rc : Option NodeId) (release : Option Nat) :
    SlotEffect P c (some a) (reattributed rc a a.notifyHeldUntil release) := by
  have hself : a.rootCause = none → { a with rootCause := none } = a := by
    intro h
    cases a
    simp_all
  unfold reattributed
  split
  · -- An event alert whose outage is over loses its marker silently.
    cases hroot : a.rootCause with
    | none =>
      rw [hself hroot]
      exact ⟨.stay _, rfl, by simp⟩
    | some r =>
      have hh := hok.not_held (.inl (by simp [hroot]))
      refine ⟨.retagged ⟨rfl, rfl, rfl, rfl, rfl⟩ (by simp [hroot]) rfl, rfl, ?_⟩
      intro a' ha' hsome
      cases ha'
      simp [hh] at hsome
  · split
    next hheld =>
      split
      · refine ⟨.refired ⟨rfl, rfl, rfl, rfl, rfl⟩ rfl ?_, rfl, ?_⟩
        · intro hnone
          simp [hnone] at hheld
        · intro a' ha' hsome
          cases ha'
          simp at hsome
      · exact ⟨.stay _, rfl, by simp⟩
    next hheld =>
      split
      · exact ⟨.stay _, rfl, by simp⟩
      · -- An alert that is not held moves to its new root cause.
        have hh : a.notifyHeldUntil = none := by
          by_contra hne
          have hsome := Option.ne_none_iff_isSome.1 hne
          exact hheld ⟨hok.liveness.2 (hok.held hsome).2, hsome⟩
        refine ⟨?_, by simp [hh], by simp [hh]⟩
        cases hroot : a.rootCause with
        | none =>
          cases rc with
          | none =>
            rw [hself hroot]
            exact .stay _
          | some r => exact .suppressed ⟨rfl, rfl, rfl, rfl, rfl⟩ hh hh hroot rfl
        | some r =>
          cases rc with
          | none => exact .refired ⟨rfl, rfl, rfl, rfl, rfl⟩ hh (by simp)
          | some r' =>
            exact .retagged ⟨rfl, rfl, rfl, rfl, rfl⟩ (by simp [hroot]) rfl

/-- What re-attribution does at one check is at most one move. -/
theorem reattributedAt_effect (hs : s.Consistent) (changed : Option NodeId) (c : CheckId) :
    SlotEffect P c (s.active c) (s.reattributedAt changed c) := by
  have hsame := SlotEffect.same (P := P) hs c
  unfold reattributedAt
  cases ha : s.active c with
  | none => rwa [ha] at hsame
  | some a =>
    rw [ha] at hsame
    simp only
    cases a.node with
    | none => exact hsame
    | some n =>
      simp only
      split
      · have hheld : s.held c = a.notifyHeldUntil := by rw [hs.held, ha]; rfl
        rw [hheld]
        exact reattributed_effect (hs.slots c a ha) _ _
      · exact hsame

/-- Re-attribution is a move at every check. -/
theorem reattribute_effect (hs : s.Consistent) (ho : Enumerates order s.active)
    (changed : Option NodeId) :
    Moves P s (s.reattribute order changed).2 (s.reattribute order changed).1 ∧
      (s.reattribute order changed).1.Consistent :=
  effect_of_slots hs (s.reattribute_rest order changed)
    (reattribute_at hs.slots.keyed ho.nodup changed fun c a ha _ => ho.covers c (by simp [ha]))
    fun c => reattributedAt_effect hs changed c

/-- A release pass is a move at every check. -/
theorem releaseHeld_effect (hs : s.Consistent) (ho : Enumerates order s.held) (now : UnixMs) :
    Moves P s (s.releaseHeld order now).2 (s.releaseHeld order now).1 ∧
      (s.releaseHeld order now).1.Consistent := by
  refine effect_of_slots hs (s.releaseHeld_rest order now)
    (releaseHeld_at hs.slots.keyed ho now) fun c => ?_
  have hsame := SlotEffect.same (P := P) hs c
  have hagree := hs.held c
  unfold releasedAt
  cases hu : s.held c with
  | none => exact hsame
  | some u =>
    cases ha : s.active c with
    | none => simp [hu, ha] at hagree
    | some a =>
      have hsome : a.notifyHeldUntil = some u := by simpa [hu, ha] using hagree.symm
      have hroot := ((hs.slots c a ha).held (by simp [hsome])).1
      simp only [released, slot, ha] at hsame ⊢
      cases a.node with
      | none => exact hsame
      | some n =>
        simp only
        split
        · exact hsame
        · split
          · exact hsame
          · simp only [hsome, Option.isSome_some, if_true]
            exact ⟨.refired ⟨rfl, rfl, rfl, rfl, rfl⟩ rfl fun _ _ => hroot, rfl, by simp⟩

/-! ### Every atomic step -/

/-- An alert re-attribution does not look at keeps its entries, and nothing is emitted for
it. -/
theorem reattributedAt_of_not_candidate {changed : Option NodeId} (h : ∀ a, s.active c = some a →
      isCandidate (s.config.grouping.attributeDown s.down) changed a = false) :
    s.reattributedAt changed c = (s.slot c, []) := by
  unfold reattributedAt
  cases ha : s.active c with
  | none => rfl
  | some a =>
    simp only
    cases a.node with
    | none => rfl
    | some n => simp [h a ha]

section

variable {s : AlertManager} (hs : s.Consistent)

include hs

/-- The re-attribution after a liveness observation does not look at the observed node's own
liveness alert. -/
theorem not_candidate_of_liveness {attribution : NodeId → Option NodeId}
    (ha : s.active (livenessCheck node) = some a) :
    isCandidate attribution (some node) a = false := by
  have hok := hs.slots _ a ha
  have hm : a.metric = .liveness := hok.liveness.2 rfl
  have hnode : a.node = some node := by
    rw [Alert.node, hok.subject]
    rfl
  simp [isCandidate, hm, hnode]

/-- A liveness observation that is followed by a re-attribution, one check at a time: the other
checks are re-attributed from where they were, and the observed one keeps what the observation
left. -/
theorem resweep_at (hspec : SpecOk node raw spec) (hl : spec.isLiveness = true)
    (ho : Enumerates order s.active) (c : CheckId) :
    let r := s.checkCore node raw t spec
    (r.1.reattribute order (some node)).1.slot c = (r.1.reattributedAt (some node) c).1 ∧
      (r.1.reattribute order (some node)).2.filter (fun x => x.check = c)
        = (r.1.reattributedAt (some node) c).2 := by
  have hcore := checkCore_any (t := t) hs hspec
  refine reattribute_at hcore.consistent.slots.keyed ho.nodup (some node) (fun d a ha hcand => ?_) c
  by_cases hd : d = spec.check
  · rw [hd, (hspec.of_isLiveness hl).1] at ha
    simp [not_candidate_of_liveness hcore.consistent ha] at hcand
  · rw [hcore.active_of_ne d hd] at ha
    exact ho.covers d (by simp [ha])

/-- The observed node's own liveness check keeps what the observation left. -/
theorem reattributedAt_own (node : NodeId) :
    s.reattributedAt (some node) (livenessCheck node) = (s.slot (livenessCheck node), []) :=
  reattributedAt_of_not_candidate fun _ ha => not_candidate_of_liveness hs ha

/-- One observation, with the re-attribution that may follow it, is a move at every check: the
observed node's own liveness alert is not looked at again, and the others were not touched
before. -/
theorem processCheck_effect (hspec : SpecOk node raw spec)
    (horder : spec.isLiveness = true → Enumerates order s.active)
    (hP : ∀ a, Opens s (.check order node raw t spec) spec.check a → P (s.active spec.check) a) :
    Moves P s (s.processCheck order node raw t spec).2 (s.processCheck order node raw t spec).1 ∧
      (s.processCheck order node raw t spec).1.Consistent := by
  have hcore := checkCore_effect (P := P) hs hspec hP
  rw [processCheck_eq]
  unfold resweepIf
  split
  next hsweep =>
    have hl := resweeps_isLiveness hsweep
    have hc := (hspec.of_isLiveness hl).1
    have hat := resweep_at (t := t) hs hspec hl (horder hl)
    generalize s.checkCore node raw t spec = r at hcore hat
    obtain ⟨hmoves, hcons⟩ := effect_of_slots (P := P) hcore.consistent
      (r.1.reattribute_rest order (some node)) hat
      fun c => reattributedAt_effect hcore.consistent (some node) c
    refine ⟨fun c => ?_, hcons⟩
    rw [filter_append]
    by_cases hcc : c = spec.check
    · obtain ⟨hslot, hnone⟩ := hat c
      rw [hcc, hc, reattributedAt_own hcore.consistent] at hslot hnone
      rw [hcc, hc, hnone, append_nil, active_of_slot hslot]
      exact hcore.moves (livenessCheck node)
    · rw [hcore.quiet c hcc, ← hcore.active_of_ne c hcc]
      exact hmoves c
  · exact ⟨hcore.moves, hcore.consistent⟩

end

/-- A step that leaves the entries of every check alone keeps the engine consistent. -/
theorem effect_of_entries (hs : s.Consistent) (hactive : s'.active = s.active)
    (hheld : s'.held = s.held) (hstates : s'.states = s.states)
    (hconfig : s'.config = s.config ∨ s'.config.loaded = true) :
    Moves P s [] s' ∧ s'.Consistent := by
  refine ⟨.of_active_eq hactive, ?_, ?_, ?_, ?_⟩
  · intro c a ha
    rw [hactive] at ha
    exact hs.slots c a ha
  · intro c
    rw [hactive, hheld]
    exact hs.held c
  · rcases hconfig with h | h
    · rw [h]
      exact hs.loaded
    · exact fun _ => h
  · intro c a ha hh
    rw [hactive] at ha
    rw [hstates]
    obtain ⟨hl, hrest⟩ := hs.waiting c a ha hh
    exact ⟨hconfig.elim (fun h => by rw [h]; exact hl) id, hrest⟩

/-- Closing an orphan is a move at every check. -/
theorem resolveOrphan_effect (hs : s.Consistent) (c : CheckId) :
    Moves P s (s.resolveOrphan c).2 (s.resolveOrphan c).1 ∧ (s.resolveOrphan c).1.Consistent := by
  rcases s.resolveOrphan_cases c with ⟨_, he⟩ | ⟨_, he⟩ <;> rw [he]
  · exact ⟨.of_active_eq rfl, hs⟩
  · exact close_effect hs rfl fun d hd => update_of_ne hd _ _

theorem raised_name (raised : Raised) : raised.alert.check.name ≠ .liveness := by
  cases raised <;> simp [alert, subjectAlert, subjectCheckId]

theorem raised_slotOk (raised : Raised) : SlotOk raised.alert.check raised.alert := by
  cases raised <;>
    exact ⟨rfl, rfl, by simp [alert, subjectAlert, subjectCheckId],
      by simp [alert, subjectAlert, subjectCheckId],
      by simp [alert, subjectAlert]⟩

/-- Raising an alert is a move at every check. -/
theorem raiseEventAlert_effect (hs : s.Consistent) (raised : Raised)
    (hP : ∀ a, Opens s (.raise raised.alert) raised.alert.check a →
      P (s.active raised.alert.check) a) :
    Moves P s (s.raiseEventAlert raised.alert).2 (s.raiseEventAlert raised.alert).1 ∧
      (s.raiseEventAlert raised.alert).1.Consistent := by
  have hok := raised_slotOk raised
  have hheld : raised.alert.notifyHeldUntil = none := by cases raised <;> rfl
  unfold raiseEventAlert
  split
  · exact ⟨.of_active_eq rfl, hs⟩
  next hsev =>
    have hmove : Move P raised.alert.check (s.active raised.alert.check)
        [.fire raised.alert] (some raised.alert) := by
      refine .opened (hP _ (.raised (fun b hb => ?_) hheld)) hok hheld
      simpa [hb] using hsev
    refine ⟨.of_update hs.slots rfl hmove, ?_⟩
    refine hs.of_update rfl (hmove.filed (hs.slots _)) ?_ rfl (fun _ _ => rfl) ?_
    · -- What is replaced is no liveness alert, so its notification was not held.
      refine (update_of_apply_eq ?_).symm
      show s.held raised.alert.check = _
      rw [hs.held]
      simp only [Option.bind_some, hheld]
      cases ha : s.active raised.alert.check with
      | none => rfl
      | some a => exact (hs.slots _ a ha).not_held (.inr (raised_name raised))
    · intro a ha hsome
      cases ha
      simp [hheld] at hsome

/-- Every atomic step moves every check at most once and keeps the engine consistent. -/
theorem atom_effect {x : Atom} (hs : s.Consistent) (hx : AtomOk s x)
    (hP : ∀ c a, Opens s x c a → P (s.active c) a) :
    Moves P s (atomStep s x).2 (atomStep s x).1 ∧ (atomStep s x).1.Consistent := by
  cases x with
  | check order node raw t spec => exact processCheck_effect hs hx.1 hx.2 fun a => hP spec.check a
  | retire node metric =>
    show Moves P s (retireLegacyNodeCheck node s metric).2 _ ∧ _
    rw [atomStep, retire_eq]
    split
    · have hforget : Moves P s [] (s.forgetLegacy (checkId node (.metric metric))) ∧
          (s.forgetLegacy (checkId node (.metric metric))).Consistent :=
        effect_of_entries hs rfl rfl rfl (.inl rfl)
      obtain ⟨hmoves, hcons⟩ :=
        resolveOrphan_effect (P := P) hforget.2 (checkId node (.metric metric))
      exact ⟨hmoves, hcons⟩
    · exact ⟨.of_active_eq rfl, hs⟩
  | orphan c => exact resolveOrphan_effect hs c
  | close c => exact close_effect hs rfl fun d _ => congrFun (s.closeActive_states c) d
  | raise a =>
    obtain ⟨raised, rfl⟩ := hx
    exact raiseEventAlert_effect hs raised fun a => hP _ a
  | regroup order => exact reattribute_effect hs hx none
  | releaseHeld now order => exact releaseHeld_effect hs hx now
  | setConfig config => exact effect_of_entries hs rfl rfl rfl (.inr hx)
  | forgetLegacy _ | markRows _ | dropNodes | publishIntervals _ | recordRowName _ _ _ _ =>
    exact effect_of_entries hs rfl rfl rfl (.inl rfl)

theorem atom_consistent {x : Atom} (hs : s.Consistent) (hx : AtomOk s x) :
    (atomStep s x).1.Consistent :=
  (atom_effect (P := fun _ _ => True) hs hx fun _ _ _ => trivial).2

end AlertManager

/-! ### What a step leaves alone -/

/-- The step is about checks other than `d`, and goes over no map. -/
def Atom.LeavesAlone (d : CheckId) : Atom → Prop
  | .check _ _ _ _ spec => spec.isLiveness = false ∧ d ≠ spec.check
  | .retire node metric => d ≠ checkId node (.metric metric)
  | .orphan c | .close c => d ≠ c
  | .raise a => d ≠ a.check
  | .regroup _ | .releaseHeld _ _ => False
  | _ => True

/-- The step changes neither a live state nor the down set. -/
def Atom.KeepsLive : Atom → Prop
  | .check _ _ _ _ spec => spec.isLiveness = false
  | .dropNodes => False
  | _ => True

/-- The step installs no configuration. -/
def Atom.KeepsConfig : Atom → Prop
  | .setConfig _ => False
  | _ => True

namespace AlertManager

theorem resolveOrphan_entries (s : AlertManager) {c d : CheckId} (hd : d ≠ c) :
    (s.resolveOrphan c).1.entries d = s.entries d := by
  rcases s.resolveOrphan_cases c with ⟨_, he⟩ | ⟨_, he⟩ <;> rw [he]
  have h := s.closeActive_entries hd
  simp only [entries, Entries.mk.injEq, closeActive_states] at h
  simp [entries, hd, h]

section

variable {s : AlertManager}
variable {x : Atom}

/-- A step about other checks leaves the entries of a check as they are. -/
theorem atom_entries {d : CheckId} (h : x.LeavesAlone d) :
    (atomStep s x).1.entries d = s.entries d := by
  cases x with
  | check order node raw t spec =>
    rw [atomStep, processCheck_of_threshold h.1]
    exact s.checkCore_entries node raw t spec h.2
  | retire node metric =>
    rw [atomStep, retire_eq]
    split
    · exact (s.forgetLegacy _).resolveOrphan_entries h
    · rfl
  | orphan c => exact s.resolveOrphan_entries h
  | close c => exact s.closeActive_entries h
  | raise a =>
    simp only [atomStep, raiseEventAlert]
    split
    · rfl
    · simp [entries, setActive, show d ≠ a.check from h]
  | regroup order | releaseHeld now order => exact absurd h id
  | forgetLegacy _ | markRows _ | dropNodes | setConfig _ | publishIntervals _
  | recordRowName _ _ _ _ => rfl

theorem closeActive_about (hw : s.WellFormed) (c : CheckId) :
    ∀ x ∈ (s.closeActive c).2, x.check = c :=
  (closeActive_move (P := fun _ _ => True) rfl).check_eq (hw c)

theorem resolveOrphan_about (hw : s.WellFormed) (c : CheckId) :
    ∀ x ∈ (s.resolveOrphan c).2, x.check = c := by
  rcases s.resolveOrphan_cases c with ⟨_, he⟩ | ⟨_, he⟩ <;> rw [he]
  · simp
  · exact closeActive_about hw c

/-- A step about other checks emits nothing about a check. -/
theorem atom_quiet {d : CheckId} (hs : s.Consistent) (hx : AtomOk s x) (h : x.LeavesAlone d) :
    (atomStep s x).2.filter (fun x => x.check = d) = [] := by
  have hquiet : ∀ {c : CheckId} {acts : List NotifyAction}, d ≠ c → (∀ x ∈ acts, x.check = c) →
      acts.filter (fun x => x.check = d) = [] := by
    intro c acts hd hacts
    refine filter_eq_nil_iff.2 fun x hx => ?_
    simp [hacts x hx, Ne.symm hd]
  cases x with
  | check order node raw t spec =>
    rw [atomStep, processCheck_of_threshold h.1]
    exact (checkCore_any hs hx.1).quiet d h.2
  | retire node metric =>
    rw [atomStep, retire_eq]
    split
    · exact hquiet h (resolveOrphan_about (s := s.forgetLegacy _) hs.slots _)
    · rfl
  | orphan c => exact hquiet h (resolveOrphan_about hs.slots c)
  | close c => exact hquiet h (closeActive_about hs.slots c)
  | raise a =>
    simp only [atomStep, raiseEventAlert]
    split
    · rfl
    · exact hquiet h (by simp)
  | regroup order | releaseHeld now order => exact absurd h id
  | forgetLegacy _ | markRows _ | dropNodes | setConfig _ | publishIntervals _
  | recordRowName _ _ _ _ => rfl

/-- What a step leaves of the live states, the down set and the configuration. The state of a check
it leaves, forgets, or moves by the sample it observes. -/
structure Frame (x : Atom) (s s' : AlertManager) : Prop where
  live : x.KeepsLive → s'.live = s.live ∧ s'.down = s.down
  config : x.KeepsConfig → s'.config = s.config
  states : ∀ c, s'.states c = s.states c ∨ s'.states c = none ∨
    ∃ order node raw t spec, x = .check order node raw t spec ∧ c = spec.check ∧
      s'.states c = some (s.nextState raw t spec)

theorem Frame.of_base (h : s'.base = s.base) : Frame x s s' := by
  have hl := congrArg AlertManager.live h
  have hd := congrArg down h
  have hc := congrArg AlertManager.config h
  have hst := congrArg AlertManager.states h
  exact ⟨fun _ => ⟨hl, hd⟩, fun _ => hc, fun c => .inl (congrFun hst c)⟩

theorem frame_orphan (s : AlertManager) (d : CheckId) : Frame x s (s.resolveOrphan d).1 := by
  rcases s.resolveOrphan_cases d with ⟨_, he⟩ | ⟨_, he⟩ <;> rw [he]
  · exact .of_base rfl
  · rw [closeActive_frame]
    refine ⟨fun _ => ⟨rfl, rfl⟩, fun _ => rfl, fun c => ?_⟩
    by_cases hcd : c = d
    · exact .inr (.inl (by simp [hcd]))
    · exact .inl (update_of_ne hcd _ _)

theorem atom_frame (s : AlertManager) (x : Atom) : Frame x s (atomStep s x).1 := by
  cases x with
  | check order node raw t spec =>
    have hb := s.processCheck_base order node raw t spec
    refine ⟨fun hl => ?_, fun _ => ?_, fun c => ?_⟩
    · rcases s.trackSample_cases node raw t spec with ⟨_, he⟩ | ⟨_, hl', _, _⟩
      · rw [he] at hb
        exact (Frame.of_base hb).live hl
      · simp [show spec.isLiveness = false from hl] at hl'
    · have hc := congrArg config (s.processCheck_settings order node raw t spec)
      exact hc
    · simp only [atomStep, processCheck_states]
      by_cases hc : c = spec.check
      · exact .inr (.inr ⟨order, node, raw, t, spec, rfl, hc, by simp [hc]⟩)
      · exact .inl (update_of_ne hc _ _)
  | retire node metric =>
    rw [atomStep, retire_eq]
    split
    · obtain ⟨hl, hc, hst⟩ := frame_orphan (x := .retire node metric) (s.forgetLegacy _) _
      exact ⟨hl, hc, hst⟩
    · exact .of_base rfl
  | orphan c => exact frame_orphan s c
  | close c => exact .of_base (s.closeActive_base c)
  | raise a =>
    simp only [atomStep, raiseEventAlert]
    split <;> exact .of_base rfl
  | regroup order => exact .of_base (base_of_rest (s.reattribute_rest order none))
  | releaseHeld now order => exact .of_base (base_of_rest (s.releaseHeld_rest order now))
  | dropNodes => exact ⟨fun h => absurd h id, fun _ => rfl, fun _ => .inl rfl⟩
  | setConfig config => exact ⟨fun _ => ⟨rfl, rfl⟩, fun h => absurd h id, fun _ => .inl rfl⟩
  | forgetLegacy _ | markRows _ | publishIntervals _ | recordRowName _ _ _ _ =>
    exact ⟨fun _ => ⟨rfl, rfl⟩, fun _ => rfl, fun _ => .inl rfl⟩

theorem atom_live (h : x.KeepsLive) :
    (atomStep s x).1.live = s.live ∧ (atomStep s x).1.down = s.down := (atom_frame s x).live h

theorem atom_config (h : x.KeepsConfig) : (atomStep s x).1.config = s.config :=
  (atom_frame s x).config h

end

end AlertManager

end Yagra
