import Mathlib.Algebra.Order.Ring.Nat
import Yagra.Alert.CheckState
import Yagra.Lib.Emit

/-!
# `Yagra.Proofs.Hysteresis`: what commits a state

A tracker keeps one pair, a state and a count, of everything it was fed. `dwell_hysteresis` reads it
against the whole history: the samples so far, each with the state it was compared with and what it
committed, and the edits of the dwell between them. A sample commits its state exactly when the run
of equal samples it ends is as long as the dwell in force (`streak`, `dwellAfter`), and an edit does
not restart the run.

`Follows` is the invariant. Its `run` says what the pair is: the length the tracker would give the
run of any state but the committed one, which covers a tracker with no pair too.
-/

set_option autoImplicit false

namespace Yagra.DwellTracker

open Lib List

/-- What is done to a tracker. -/
inductive Op where
  | sample (raw : NodeState)
  | setDwell (dwell : UInt32)

/-- A sample, the state it was compared with, and what it committed. -/
structure Sampled where
  raw : NodeState
  against : NodeState
  commit : Option NodeState

/-- One operation, and what a sample found. -/
def step (t : DwellTracker) : Op → DwellTracker × List Sampled
  | .sample raw => ((t.observe raw).1, [⟨raw, t.committed, (t.observe raw).2⟩])
  | .setDwell dwell => (t.setDwell dwell.toNat, [])

variable (s : NodeState) (log : List Sampled) (e : Sampled)

/-- How many samples of `s` the history ends with, none of which committed. -/
def streak : Nat :=
  (log.reverse.takeWhile fun e => decide (e.raw = s) && e.commit.isNone).length

/-- The state last committed, or the one of the start. -/
def settledOn : NodeState :=
  (log.filterMap Sampled.commit).getLast?.getD s

/-- The dwell last set. -/
def dwellAfter (d : UInt32) (ops : List Op) : UInt32 :=
  ops.foldl (fun d op => match op with | .setDwell d' => d' | .sample _ => d) d

/-- A sample that agrees with the committed state, or commits. -/
def Sampled.confirms : Bool := decide (e.raw = e.against) || e.commit.isSome

theorem streak_concat :
    streak s (log ++ [e]) = if e.raw = s ∧ e.commit = none then streak s log + 1 else 0 := by
  unfold streak
  rw [reverse_append, reverse_singleton, singleton_append, takeWhile_cons]
  by_cases he : e.raw = s ∧ e.commit = none
  · simp [he]
  · rw [if_neg he, if_neg (by simpa using he)]
    rfl

theorem settledOn_concat : settledOn s (log ++ [e]) = e.commit.getD (settledOn s log) := by
  unfold settledOn
  cases hcommit : e.commit <;> simp [hcommit]

/-- What a tracker knows of its history. -/
structure Follows (start : DwellTracker) (log : List Sampled) (t : DwellTracker) : Prop where
  committed : t.committed = settledOn start.committed log
  confirmed : t.confirmed = (start.confirmed || log.any Sampled.confirms)
  run : ∀ raw, raw ≠ t.committed → t.runLength raw = streak raw log + 1
  fits : ∀ raw, t.runLength raw < 2 ^ 32
  dwell_fits : t.dwell < 2 ^ 32

theorem max_one_fits (d : UInt32) : max d.toNat 1 < 2 ^ 32 := by
  have := d.toNat_lt
  omega

variable {start t : DwellTracker} {log : List Sampled}

theorem Follows.sample (h : Follows start log t) (raw : NodeState) :
    Follows start (log ++ [⟨raw, t.committed, (t.observe raw).2⟩]) (t.observe raw).1 := by
  rcases t.observe_cases raw with ⟨hagrees, heq⟩ | ⟨hne, hlong, heq⟩ | ⟨hne, hshort, heq⟩ <;>
    rw [heq]
  -- A run of another state than the sample's is over, in each of the three cases.
  · refine ⟨?_, ?_, fun raw' hraw' => ?_, fun raw' => ?_, h.dwell_fits⟩
    · simp [settledOn_concat, h.committed]
    · simp [Sampled.confirms, hagrees]
    · rw [streak_concat, if_neg fun hrun => hraw' (hrun.1.symm.trans hagrees)]
      rfl
    · exact Nat.one_lt_two_pow (by decide)
  · refine ⟨?_, ?_, fun raw' hraw' => ?_, fun raw' => ?_, h.dwell_fits⟩
    · simp [settledOn_concat]
    · simp [Sampled.confirms]
    · rw [streak_concat, if_neg fun hrun => Ne.symm hraw' hrun.1]
      rfl
    · exact Nat.one_lt_two_pow (by decide)
  · refine ⟨?_, ?_, fun raw' hraw' => ?_, fun raw' => ?_, h.dwell_fits⟩
    · simp [settledOn_concat, h.committed]
    · simp [Sampled.confirms, hne, h.confirmed]
    · rw [streak_concat]
      by_cases hsame : raw = raw'
      · subst hsame
        simp [runLength, ← h.run raw hne]
      · simp [runLength, hsame]
    · have hbound := h.dwell_fits
      show (if raw = raw' then t.runLength raw + 1 else 1) < 2 ^ 32
      split <;> omega

theorem Follows.step (h : Follows start log t) (op : Op) :
    Follows start (log ++ (t.step op).2) (t.step op).1 := by
  cases op with
  | sample raw => exact h.sample raw
  | setDwell dwell =>
    rw [show (t.step (.setDwell dwell)).2 = [] from rfl, append_nil]
    exact ⟨h.committed, h.confirmed, h.run, h.fits, max_one_fits dwell⟩

theorem dwell_emitAll {d : UInt32} (ht : t.dwell = max d.toNat 1) (ops : List Op) :
    (emitAll step t ops).1.dwell = max (dwellAfter d ops).toNat 1 := by
  induction ops generalizing t d with
  | nil => exact ht
  | cons op rest ih =>
    cases op with
    | setDwell dwell => exact ih rfl
    | sample raw =>
      refine ih ?_
      show (t.observe raw).1.dwell = _
      rcases t.observe_cases raw with ⟨-, heq⟩ | ⟨-, -, heq⟩ | ⟨-, -, heq⟩ <;> rw [heq, ← ht]

/-- Over every history of samples and edits: a sample commits its state exactly when that is not the
committed one and its run is as long as the dwell in force; nothing else moves the committed state;
it shows from the first sample that confirms it on, and from the start if it was restored; the count
fits its 32 bits. -/
theorem dwell_hysteresis (s : NodeState) (d : UInt32) (known : Bool) (ops : List Op) :
    let start := if known then restored s d.toNat else new s d.toNat
    let t := (emitAll step start ops).1
    let log := (emitAll step start ops).2
    (∀ raw c, (t.observe raw).2 = some c ↔
      c = raw ∧ raw ≠ t.committed ∧ max (dwellAfter d ops).toNat 1 ≤ streak raw log + 1) ∧
    t.committed = settledOn s log ∧
    t.observed = (if known || log.any Sampled.confirms then some t.committed else none) ∧
    ∀ raw, t.runLength raw < 2 ^ 32 := by
  intro start t log
  have hstart : start = ⟨s, known, none, max d.toNat 1⟩ := by cases known <;> rfl
  have hfollows : Follows start ([] ++ log) t := by
    refine emitAll_history step (I := Follows start) (fun log t op _ h => h.step op) ?_
    rw [hstart]
    exact ⟨rfl, by simp, fun _ _ => rfl, fun _ => Nat.one_lt_two_pow (by decide), max_one_fits d⟩
  rw [List.nil_append] at hfollows
  have hdwell : t.dwell = max (dwellAfter d ops).toNat 1 :=
    dwell_emitAll (by rw [hstart]) ops
  refine ⟨fun raw c => ?_, ?_, ?_, hfollows.fits⟩
  · rw [← hdwell]
    rcases t.observe_cases raw with ⟨hagrees, heq⟩ | ⟨hne, hlong, heq⟩ | ⟨hne, hshort, heq⟩ <;>
      rw [heq]
    · simp [hagrees]
    · rw [hfollows.run raw hne] at hlong
      simp [hne, hlong, eq_comm]
    · rw [hfollows.run raw hne] at hshort
      simp [Nat.not_le.2 hshort]
  · rw [hfollows.committed, hstart]
  · rw [observed, hfollows.confirmed, hstart]

end Yagra.DwellTracker
