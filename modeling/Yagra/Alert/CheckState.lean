import Yagra.Common.State

/-!
# `Yagra.Alert.CheckState`: dwell hysteresis and flap detection

A check commits a state only after `dwell` consecutive samples that agree on it
(`DwellTracker.observe`). A committed change is recorded for flap detection
(`FlapDetector.record`) and reported once, as a `Transition`. `CheckState` is the pair.

`DwellTracker.observe_cases` says what one sample can do to a tracker: confirm the
committed state, extend a run of another state, or commit that state. The engine proofs use
it and its consequences, never the definition. `CheckState.observe_dwell` and
`CheckState.observe_transition` reduce a check's observation to its tracker's.
-/

set_option autoImplicit false

namespace Yagra

/-- The dwell state of one check. -/
structure DwellTracker where
  /-- The state last committed, or the seed. -/
  committed : NodeState
  /-- Whether a sample has ever agreed with `committed`. -/
  confirmed : Bool
  /-- The state of the current run of disagreeing samples, with its length. -/
  candidate : Option (NodeState × Nat)
  /-- How many consecutive samples a change takes. -/
  dwell : Nat
deriving DecidableEq

namespace DwellTracker

/-- A tracker without samples. -/
def new (initial : NodeState) (dwell : Nat) : DwellTracker :=
  ⟨initial, false, none, max dwell 1⟩

/-- A tracker read back from the history: its state was observed by an earlier process. -/
def restored (state : NodeState) (dwell : Nat) : DwellTracker :=
  ⟨state, true, none, max dwell 1⟩

variable (t : DwellTracker)

/-- The committed state, once a sample has agreed with it. -/
def observed : Option NodeState :=
  if t.confirmed then some t.committed else none

/-- Change the dwell. -/
def setDwell (dwell : Nat) : DwellTracker :=
  { t with dwell := max dwell 1 }

/-- How long the run of `raw` is with this sample added. -/
def runLength (raw : NodeState) : Nat :=
  match t.candidate with
  | some (state, n) => if state = raw then n + 1 else 1
  | none => 1

/-- One sample. The second component is the state just committed, if this sample committed
one. -/
def observe (raw : NodeState) : DwellTracker × Option NodeState :=
  if raw = t.committed then ({ t with confirmed := true, candidate := none }, none)
  else if t.dwell ≤ t.runLength raw then
    ({ t with committed := raw, confirmed := true, candidate := none }, some raw)
  else ({ t with candidate := some (raw, t.runLength raw) }, none)

variable (t : DwellTracker) (d : Nat)

/-- What one sample does: it confirms the committed state, or it commits another state, or
it lengthens the run of another state and changes nothing else. -/
theorem observe_cases (raw : NodeState) :
    (raw = t.committed ∧ t.observe raw = ({ t with confirmed := true, candidate := none }, none)) ∨
    (raw ≠ t.committed ∧ t.dwell ≤ t.runLength raw ∧
      t.observe raw
        = ({ t with committed := raw, confirmed := true, candidate := none }, some raw)) ∨
    (raw ≠ t.committed ∧ t.runLength raw < t.dwell ∧
      t.observe raw = ({ t with candidate := some (raw, t.runLength raw) }, none)) := by
  by_cases hc : raw = t.committed
  · exact .inl ⟨hc, by simp [observe, hc]⟩
  · by_cases hd : t.dwell ≤ t.runLength raw
    · exact .inr (.inl ⟨hc, hd, by simp [observe, hc, hd]⟩)
    · exact .inr (.inr ⟨hc, Nat.lt_of_not_le hd, by simp [observe, hc, hd]⟩)

/-- A commit commits the sample's state, and never the state already committed. -/
theorem observe_some {t : DwellTracker} {raw c : NodeState} (h : (t.observe raw).2 = some c) :
    c = raw ∧ raw ≠ t.committed ∧ (t.observe raw).1.committed = raw ∧
      (t.observe raw).1.confirmed = true ∧ (t.observe raw).1.candidate = none := by
  rcases t.observe_cases raw with ⟨_, he⟩ | ⟨hne, _, he⟩ | ⟨_, _, he⟩
  · rw [he] at h; simp at h
  · rw [he] at h
    simp only [Option.some.injEq] at h
    rw [he]
    exact ⟨h.symm, hne, rfl, rfl, rfl⟩
  · rw [he] at h; simp at h

/-- A sample that commits nothing leaves the committed state alone. -/
theorem observe_none {t : DwellTracker} {raw : NodeState} (h : (t.observe raw).2 = none) :
    (t.observe raw).1.committed = t.committed := by
  rcases t.observe_cases raw with ⟨_, he⟩ | ⟨_, _, he⟩ | ⟨_, _, he⟩
  · rw [he]
  · rw [he] at h; simp at h
  · rw [he]

end DwellTracker

/-! ### Flap detection -/

/-- The committed transitions of one check, and how many of them inside the window make it
flap. -/
structure FlapDetector where
  windowMs : Int
  threshold : Nat
  transitions : List Int
deriving DecidableEq

namespace FlapDetector

/-- No transitions yet. -/
def new (windowMs : Int) (threshold : Nat) : FlapDetector := ⟨max windowMs 0, threshold, []⟩

variable (f : FlapDetector)

/-- Change the window. -/
def setWindowMs (windowMs : Int) : FlapDetector :=
  { f with windowMs := max windowMs 0 }

/-- Drop the transitions before the window from the front. -/
def prune (nowMs : Int) : FlapDetector :=
  { f with transitions := f.transitions.dropWhile (fun t => t < nowMs - f.windowMs) }

/-- One more transition. -/
def record (atMs : Int) : FlapDetector :=
  { f with transitions := f.transitions ++ [atMs] }.prune atMs

/-- Whether the check flaps. -/
def isFlapping (nowMs : Int) : Bool :=
  decide (f.threshold ≤ (f.transitions.filter (fun t => nowMs - f.windowMs ≤ t)).length)

end FlapDetector

/-! ### Check state -/

/-- A committed state change, with whether the check is flapping. -/
structure Transition where
  state : NodeState
  flapping : Bool
deriving DecidableEq

/-- What the engine keeps for one check. -/
structure CheckState where
  dwell : DwellTracker
  flap : FlapDetector
deriving DecidableEq

namespace CheckState

/-- A check without samples. -/
def new (initial : NodeState) (dwell : Nat) (flapWindow : Int) (flapThreshold : Nat) :
    CheckState :=
  ⟨.new initial dwell, .new flapWindow flapThreshold⟩

/-- A check read back from the history. -/
def restored (state : NodeState) (dwell : Nat) (flapWindow : Int) (flapThreshold : Nat) :
    CheckState :=
  ⟨.restored state dwell, .new flapWindow flapThreshold⟩

variable (s : CheckState) (raw : NodeState) (nowMs : Int)

/-- The committed state. -/
def committed : NodeState := s.dwell.committed
/-- The state a sample has agreed with. -/
def observed : Option NodeState := s.dwell.observed
/-- The run under way. -/
def candidate : Option (NodeState × Nat) := s.dwell.candidate

/-- Whether a run of disagreeing samples is under way. -/
def pending : Bool := s.candidate.isSome

/-- Change the dwell. -/
def setDwell (dwell : Nat) : CheckState :=
  { s with dwell := s.dwell.setDwell dwell }

/-- Change the window. -/
def setFlapWindowMs (windowMs : Int) : CheckState :=
  { s with flap := s.flap.setWindowMs windowMs }

/-- One sample of the check. -/
def observe : CheckState × Option Transition :=
  match s.dwell.observe raw with
  | (dwell, none) => ({ s with dwell := dwell }, none)
  | (dwell, some state) =>
    let flap := s.flap.record nowMs
    (⟨dwell, flap⟩, some ⟨state, flap.isFlapping nowMs⟩)

/-- The tracker of a check moves as the tracker's own observation says. -/
@[simp] theorem observe_dwell : (s.observe raw nowMs).1.dwell = (s.dwell.observe raw).1 := by
  unfold observe
  split <;> next h => simp [h]

/-- A check reports a transition exactly when its tracker commits, with the state
committed. -/
theorem observe_transition :
    (s.observe raw nowMs).2.map Transition.state = (s.dwell.observe raw).2 := by
  unfold observe
  split <;> next h => simp [h]

end CheckState

end Yagra
