import Yagra.Proofs.Runs

/-!
# `Yagra.Proofs.Accounting`: fires and resolves add up

The notifier only sees the actions the engine emits. It takes a check to be open from a Fire,
or from an alert restored at start-up, until the next Resolve. `isOpen` is that reading.

`open_iff_announced` compares it with the engine. Take a run in which no step commits the
outage of a node whose liveness alert is already open and announced, while the grouping may
hold the new alert back. Then at every point the open checks are those with an active alert
whose notification is not held, and every Resolve and Suppress is about an open check.

A step of that kind is the only one that takes an announced alert out of the active set without
a Resolve: the new alert replaces it, is held back, and leaves silently if the node recovers
before the hold ends. The engine reaches such a step because an outage restored at start-up may
recover before the first configuration is loaded. The recovery is committed and the alert
stays. `restored_outage_lost` is such a run.

Which incident an action names is right in every run (`resolve_names_latest_incident`).
-/

set_option autoImplicit false

namespace Yagra

open Yagra.Lib

/-! ### What the notifier takes to be open -/

/-- What one action about a check makes of whether it is open. -/
def recordAction (isOpen : Bool) : NotifyAction → Bool
  | .fire _ => true
  | .resolve _ => false
  | .suppress _ => isOpen

/-- Whether a check is open after the actions about it. -/
def openAfter (start : Bool) (acts : List NotifyAction) : Bool := acts.foldl recordAction start

/-- Whether a check is open after a run's actions: the last of restored, Fire and Resolve is not
a Resolve. -/
def isOpen (rows : List AlertHistoryRow) (acts : List NotifyAction) (c : CheckId) : Bool :=
  openAfter (rows.any fun row => row.check = c) (acts.filter fun x => x.check = c)

/-- Every Resolve and every Suppress of a list of actions about one check finds it open. -/
def Accounted : Bool → List NotifyAction → Prop
  | _, [] => True
  | _, .fire _ :: rest => Accounted true rest
  | isOpen, .resolve _ :: rest => isOpen = true ∧ Accounted false rest
  | isOpen, .suppress _ :: rest => isOpen = true ∧ Accounted isOpen rest

theorem openAfter_append (start : Bool) (l l' : List NotifyAction) :
    openAfter start (l ++ l') = openAfter (openAfter start l) l' := List.foldl_append

theorem accounted_append {start : Bool} {l l' : List NotifyAction} (h : Accounted start l)
    (h' : Accounted (openAfter start l) l') : Accounted start (l ++ l') := by
  induction l generalizing start with
  | nil => exact h'
  | cons x rest ih =>
    cases x with
    | fire a => exact ih h h'
    | resolve a | suppress a => exact ⟨h.1, ih h.2 h'⟩

/-! ### Along a path -/

/-- Whether a slot holds an alert whose notification is not held. -/
def announced (b : Option Alert) : Bool := b.any fun a => a.notifyHeldUntil.isNone

variable {acts : List NotifyAction} {b b' : Option Alert}

theorem announced_iff : announced b = true ↔ ∃ a, b = some a ∧ a.notifyHeldUntil = none := by
  cases b <;> simp [announced]

/-- A new alert is held back only where nothing was announced. -/
def NoHoldOver (b : Option Alert) (a : Alert) : Prop :=
  a.notifyHeldUntil.isSome → announced b = false

/-- A move's actions account for what it does to the slot. -/
theorem Move.accounted {c : CheckId} (h : Move NoHoldOver c b acts b') :
    Accounted (announced b) acts ∧ openAfter (announced b) acts = announced b' := by
  cases h with
  | stay => exact ⟨trivial, rfl⟩
  | opened hp hok hh | refired hs hh hr =>
    exact ⟨trivial, by simp [openAfter, recordAction, announced, hh]⟩
  | @holding _ a hp hok hh =>
    refine ⟨trivial, ?_⟩
    rw [hp hh]
    simp [openAfter, announced, Option.isNone_eq_false_iff.2 hh]
  | closed hh => exact ⟨⟨by simp [announced, hh], trivial⟩, rfl⟩
  | dropped hh =>
    exact ⟨trivial, by simp [openAfter, announced, Option.isNone_eq_false_iff.2 hh]⟩
  | retagged hs hroot hh => exact ⟨trivial, by simp [openAfter, announced, hh]⟩
  | suppressed hs hh hh' hroot hroot' =>
    exact ⟨⟨by simp [announced, hh], trivial⟩,
      by simp [openAfter, recordAction, announced, hh, hh']⟩

/-- So do the actions of a path. -/
theorem Path.accounted {c : CheckId} (h : Path NoHoldOver c b acts b') :
    Accounted (announced b) acts ∧ openAfter (announced b) acts = announced b' := by
  induction h with
  | refl b => exact ⟨trivial, rfl⟩
  | step hm _ ih =>
    obtain ⟨hacc, hopen⟩ := hm.accounted
    obtain ⟨hacc', hopen'⟩ := ih
    rw [← hopen] at hacc' hopen'
    exact ⟨accounted_append hacc hacc', by rw [openAfter_append, hopen']⟩

/-! ### Which incident an action is about -/

/-- What a receiver makes of an action about a check: it keeps the key of the incident that is open.
A Resolve or a Suppress that names another one is refused. -/
def follow : Option (Option DedupKey) → NotifyAction → Option (Option DedupKey)
  | none, _ => none
  | some _, .fire a => some (some a.dedupKey)
  | some key, .resolve a => if key = some a.dedupKey then some none else none
  | some key, .suppress a => if key = some a.dedupKey then some key else none

/-- The receiver has refused nothing, and knows the incident of an alert that is announced. -/
def Followed (b : Option Alert) (st : Option (Option DedupKey)) : Prop :=
  ∃ key, st = some key ∧ ∀ a, b = some a → a.notifyHeldUntil = none → key = some a.dedupKey

theorem SameIncident.dedupKey_eq {a a' : Alert} (h : SameIncident a a') :
    a'.dedupKey = a.dedupKey := by
  simp [Alert.dedupKey, h.subject, h.check, h.severity]

theorem Move.followed {P : Option Alert → Alert → Prop} {c : CheckId} (h : Move P c b acts b')
    {st : Option (Option DedupKey)} (hst : Followed b st) : Followed b' (acts.foldl follow st) := by
  obtain ⟨key, rfl, hkey⟩ := hst
  cases h with
  | stay => exact ⟨key, rfl, hkey⟩
  | opened hp hok hh | refired hs hh hr => exact ⟨_, rfl, by simp⟩
  -- The receiver may still take a replaced alert to be open. No Resolve comes before a Fire then.
  | holding hp hok hh =>
    refine ⟨key, rfl, fun a ha hnone => ?_⟩
    cases ha
    simp [hnone] at hh
  | closed hh => exact ⟨none, if_pos (hkey _ rfl hh), by simp⟩
  | dropped hh => exact ⟨key, rfl, by simp⟩
  | retagged hs hroot hh => exact ⟨key, rfl, by simpa [hh, hs.dedupKey_eq] using hkey⟩
  | suppressed hs hh hh' hroot hroot' =>
    have hopen := hs.dedupKey_eq ▸ hkey _ rfl hh
    exact ⟨key, if_pos hopen, by simpa using fun _ => hopen⟩

namespace AlertManager

/-! ### Along a run -/

/-- The step commits the outage of a node whose liveness alert is open and announced, while the
grouping waits and the node is grouped. -/
def reopensUnderWait (s : AlertManager) : Atom → Bool
  | .check _ node raw t spec =>
    spec.isLiveness && announced (s.active spec.check) &&
      (s.transitionOf raw t spec).any (fun tr => tr.state = .unreachable) &&
      s.config.groupingWait && decide (s.config.grouping.levelOf node ≠ .off)
  | _ => false

/-- Without such a step, nothing is held back over an announced alert. -/
theorem noHoldOver_of_not_reopens {s : AlertManager} {x : Atom}
    (h : s.reopensUnderWait x = false) : OpensWith NoHoldOver s x := by
  intro c a ho hheld
  cases ho with
  | transition _ _ htr _ hstate hhold =>
    obtain ⟨hl, hun, hwait, hlevel⟩ := hhold hheld
    rw [hun] at hstate
    simpa [reopensUnderWait, hl, htr, ← hstate, hwait, hlevel] using h
  | raised _ hnone => simp [hnone] at hheld

/-- The restored alerts are the announced ones at start-up. -/
theorem announced_restored (rows : List AlertHistoryRow) (c : CheckId) :
    announced ((restored rows).active c) = rows.any fun row => row.check = c := by
  rw [← restored_active_isSome]
  cases ha : (restored rows).active c with
  | none => rfl
  | some a =>
    obtain ⟨row, _, _, rc, rfl⟩ := restored_active ha
    rfl

/-- In every run from the restored alerts without such a step, the open checks are those with an
active alert whose notification is not held, and every Resolve and every Suppress finds its
check open. -/
theorem open_iff_announced {rows : List AlertHistoryRow} (hrows : ∀ row ∈ rows, RowOk row)
    {ops : List Op} (hok : Along (fun s op => op.Ok s) step (restored rows) ops)
    (hno : Along (EachAtom fun s x => s.reopensUnderWait x = false) step (restored rows) ops)
    (c : CheckId) :
    (isOpen rows (emitAll step (restored rows) ops).2 c = true ↔
      ∃ a, (emitAll step (restored rows) ops).1.active c = some a ∧ a.notifyHeldUntil = none) ∧
    Accounted (rows.any fun row => row.check = c)
      ((emitAll step (restored rows) ops).2.filter fun x => x.check = c) := by
  have hP : Along (EachAtom (OpensWith NoHoldOver)) step (restored rows) ops :=
    hno.mono fun s op h => h.mono fun s x => noHoldOver_of_not_reopens
  obtain ⟨hpaths, _⟩ := run_effect (restored_consistent hrows) hok hP
  obtain ⟨hacc, hopen⟩ := (hpaths c).accounted
  rw [announced_restored] at hacc hopen
  exact ⟨by rw [isOpen, hopen, announced_iff], hacc⟩

/-! ### Two runs -/

/-- The held outage of node 1 is released. -/
def releasedOutageOps : List Op := heldOutageOps ++ [.releaseHeld 10000000 bothLiveness]

theorem released_outage_accounted :
    (isOpen [outageRow 1] (emitAll step (restored [outageRow 1]) releasedOutageOps).2
        (livenessCheck 1) = true ↔
      ∃ a, (emitAll step (restored [outageRow 1]) releasedOutageOps).1.active (livenessCheck 1)
        = some a ∧ a.notifyHeldUntil = none) ∧
    Accounted ([outageRow 1].any fun row => row.check = livenessCheck 1)
      ((emitAll step (restored [outageRow 1]) releasedOutageOps).2.filter
        fun x => x.check = livenessCheck 1) :=
  open_iff_announced (outageRow_ok 1) (ok_of_outage_run (by decide +kernel))
    (by decide +kernel) (livenessCheck 1)

/-- Node 1 recovers before a configuration is loaded, so its restored alert stays. It goes down
again while node 2 is failing, so the new alert is held back in place of the old one, and it
recovers before the hold ends. -/
def lostOutageOps : List Op :=
  [pollOp 1 .reachable 1, pollOp 1 .reachable 2, pollOp 1 .reachable 3,
    loadWaiting, pollOp 2 .unreachable 4, pollOp 1 .unreachable 5,
    pollOp 1 .unreachable 6, pollOp 1 .reachable 7, pollOp 1 .reachable 8]

/-- The restored alert leaves the active set and no Resolve is ever emitted for it. -/
theorem restored_outage_lost :
    (∀ row ∈ [outageRow 1], RowOk row) ∧
    Along (fun s op => op.Ok s) step (restored [outageRow 1]) lostOutageOps ∧
    isOpen [outageRow 1] (emitAll step (restored [outageRow 1]) lostOutageOps).2
      (livenessCheck 1) = true ∧
    (emitAll step (restored [outageRow 1]) lostOutageOps).1.active (livenessCheck 1) = none :=
  ⟨outageRow_ok 1, ok_of_outage_run (by decide +kernel), by decide +kernel, by decide +kernel⟩

/-- In every run from the restored alerts, each Resolve and each Suppress of a check names the
incident of the latest Fire, or of the restored alert, which no Resolve has named since. -/
theorem resolve_names_latest_incident {rows : List AlertHistoryRow}
    (hrows : ∀ row ∈ rows, RowOk row)
    {ops : List Op} (hok : Along (fun s op => op.Ok s) step (restored rows) ops) (c : CheckId) :
    Followed ((emitAll step (restored rows) ops).1.active c)
      (((emitAll step (restored rows) ops).2.filter fun x => x.check = c).foldl follow
        (some (((restored rows).active c).map Alert.dedupKey))) := by
  have hcons := restored_consistent hrows
  obtain ⟨hpaths, _⟩ := run_effect (P := fun _ _ => True) hcons hok
    (.of_forall (fun s op _ => .of_forall (fun _ _ _ _ _ _ => trivial) s) _)
  refine (hpaths c).foldl (J := Followed) (fun _ _ _ _ hm _ => hm.followed) (hcons.slots c) ?_
  exact ⟨_, rfl, fun a ha _ => by rw [ha, Option.map_some]⟩

theorem released_outage_names_incident :
    Followed ((emitAll step (restored [outageRow 1]) releasedOutageOps).1.active (livenessCheck 1))
      (((emitAll step (restored [outageRow 1]) releasedOutageOps).2.filter
        fun x => x.check = livenessCheck 1).foldl follow
        (some (((restored [outageRow 1]).active (livenessCheck 1)).map Alert.dedupKey))) :=
  resolve_names_latest_incident (outageRow_ok 1) (ok_of_outage_run (by decide +kernel)) _

end AlertManager

end Yagra
