import Yagra.Proofs.Runs

/-!
# `Yagra.Proofs.Holds`: the bookkeeping of held notifications

That a notification is held is written down twice: in the map `held`, and on the alert itself.
`held_bookkeeping` says that the two agree in every state a run reaches, what an alert with a
held notification looks like, and that a hold ends in at most one Fire.

Most of it is in `Consistent` already. What is added here is the node's live state
(`HeldLive`), which a sweep of deleted nodes drops before it closes the node's alerts, so it
is kept by operations and not by atomic steps; and the count of the Fires of one hold
(`step_fires`), where a poll result matters as a whole: its liveness observation may fire the
held notification of another node, and none of its samples does.
-/

set_option autoImplicit false

namespace Yagra

open Yagra.Lib NotifyAction List

/-- Whether an action is a Fire. -/
def NotifyAction.isFire : NotifyAction → Bool
  | .fire _ => true
  | .resolve _ | .suppress _ => false

/-! ### Moves -/

section
variable {P : Option Alert → Alert → Prop} {c : CheckId} {b b' : Option Alert}
  {acts : List NotifyAction}

/-- A move fires at most once, and then leaves no notification held. -/
theorem Move.fires (h : Move P c b acts b') :
    acts.countP isFire ≤ 1 ∧ (0 < acts.countP isFire → b'.bind Alert.notifyHeldUntil = none) := by
  cases h with
  | opened hp hok hh | refired hs hh hr => exact ⟨by simp [isFire], fun _ => hh⟩
  | stay | holding | closed | dropped | retagged | suppressed =>
    exact ⟨by simp [isFire], by simp [isFire]⟩

/-- An alert held after a move was there before it, or was just held back. -/
theorem Move.held_before {a : Alert} (h : Move P c b acts (some a)) (hb : Filed c b)
    (hh : a.notifyHeldUntil.isSome) : b = some a ∨ SlotOk c a ∧ P b a := by
  generalize hb' : some a = b' at h
  cases h with
  | stay => exact .inl rfl
  | opened hp hok _ | holding hp hok _ =>
    cases hb'
    exact .inr ⟨hok, hp⟩
  | closed | dropped => simp at hb'
  | refired _ hnone _ | suppressed _ _ hnone _ _ =>
    cases hb'
    simp [hnone] at hh
  | retagged _ hroot hsame =>
    cases hb'
    have := ((hb _ rfl).held (hsame ▸ hh)).1
    simp [this] at hroot

end

namespace AlertManager

/-! ### The live state of a held node -/

/-- The node of a held notification is committed unreachable. -/
def HeldLive (s : AlertManager) : Prop :=
  ∀ n a, s.active (livenessCheck n) = some a → a.notifyHeldUntil.isSome →
    s.live n = some .unreachable

variable {s : AlertManager} {c : CheckId}

/-- Every atomic step but the dropping of nodes keeps the live states of held nodes. -/
theorem atom_heldLive {x : Atom} (hs : s.Consistent) (hx : AtomOk s x) (hdrop : x ≠ .dropNodes)
    (h : s.HeldLive) : (atomStep s x).1.HeldLive := by
  intro n a ha hh
  by_cases hkeep : x.KeepsLive
  · -- The live states stay, and such a step holds nothing back.
    obtain ⟨hlive, _⟩ := atom_live (s := s) hkeep
    have hmoves := (atom_effect (P := fun _ a => a.notifyHeldUntil = none) hs hx
      fun c a ho => by
        cases ho with
        | transition _ _ _ _ _ hheld =>
          by_contra hne
          have := (hheld (Option.ne_none_iff_isSome.1 hne)).1
          simp [Atom.KeepsLive, this] at hkeep
        | raised _ hheld => exact hheld).1
    have hmove := hmoves (livenessCheck n)
    rw [ha] at hmove
    rw [hlive]
    rcases hmove.held_before (hs.slots _) hh with hbefore | ⟨_, hnone⟩
    · exact h n a hbefore hh
    · simp [hnone] at hh
  · cases x with
    | check order node raw t spec =>
      have hl : spec.isLiveness = true := by simpa [Atom.KeepsLive] using hkeep
      obtain ⟨hmoves, hcons⟩ := atom_effect
        (P := fun _ a => a.check = spec.check ∧ (s.transitionOf raw t spec).isSome) hs hx
        fun c a ho => by
          cases ho with
          | transition _ hcheck htr _ _ _ => exact ⟨hcheck, by simp [htr]⟩
      have hcheck := (hx.1.of_isLiveness hl).1
      have hbefore : s.active (livenessCheck n) = some a ∨
          n = node ∧ (s.transitionOf raw t spec).isSome := by
        have hmove := hmoves (livenessCheck n)
        rw [ha] at hmove
        rcases hmove.held_before (hs.slots _) hh with hb | ⟨hok, hc, htr⟩
        · exact .inl hb
        · exact .inr ⟨livenessCheck_inj (hok.check.symm.trans (hc.trans hcheck)), htr⟩
      simp only [atomStep] at ha hcons ⊢
      rw [processCheck_live _ _ _ _ hl]
      by_cases hn : n = node
      · -- The observed node itself: its check stays committed unreachable.
        subst hn
        obtain ⟨_, _, cs, hcs, hcommitted⟩ := hcons.waiting _ a ha hh
        rw [processCheck_states, hcheck, Function.update_self] at hcs
        cases hcs
        rw [Function.update_self]
        cases htr : s.transitionOf raw t spec with
        | some tr =>
          obtain ⟨_, _, hc, ho⟩ := transitionOf_some htr
          rw [ho, ← hc, hcommitted]
          rfl
        | none =>
          have hlive := h n a (hbefore.resolve_right (by simp [htr])) hh
          unfold CheckState.observed DwellTracker.observed
          split
          · exact congrArg some hcommitted
          · exact hlive
      · rw [Function.update_of_ne hn]
        exact h n a (hbefore.resolve_right fun h => hn h.1) hh
    | dropNodes => exact absurd rfl hdrop
    | _ => exact absurd trivial hkeep

variable (s)

/-- The sweep of deleted nodes forgets a node: an inventory is known, and it does not hold it. -/
def isForgotten (n : NodeId) : Bool :=
  !s.config.nodeMeta.isEmpty && s.isGone n

/-- The sweep of deleted nodes drops the live states of the nodes it forgets, and no others. -/
theorem forgetDeletedNodes_live (order : List CheckId) (n : NodeId) :
    (s.forgetDeletedNodes order).1.live n = if s.isForgotten n then none else s.live n := by
  unfold forgetDeletedNodes isForgotten
  split
  next hempty => simp [hempty]
  next hempty =>
    have hframe : ∀ (s' : AlertManager) (l : List CheckId),
        (s'.resolveOrphans l).1.live = s'.live := fun s' l =>
      emitAll_frame (π := AlertManager.live) resolveOrphan (fun s c _ =>
        (atom_live (s := s) (x := .orphan c) trivial).1) s'
    rw [hframe]
    cases hlive : s.live n <;> simp [hempty, hlive]

theorem resolveOrphan_releasing (c : CheckId) : (s.resolveOrphan c).1.releasing = s.releasing := by
  rw [resolveOrphan_frame]

/-- The sweep of deleted nodes leaves the configuration and the release counts alone. -/
theorem forgetDeletedNodes_keeps (order : List CheckId) :
    (s.forgetDeletedNodes order).1.config = s.config ∧
      (s.forgetDeletedNodes order).1.releasing = s.releasing := by
  unfold forgetDeletedNodes
  split
  · exact ⟨rfl, rfl⟩
  · refine ⟨?_, ?_⟩
    · exact emitAll_frame (π := AlertManager.config) resolveOrphan (fun s c _ =>
        atom_config (s := s) (x := .orphan c) trivial) _
    · exact emitAll_frame (π := AlertManager.releasing) resolveOrphan (fun s c _ =>
        s.resolveOrphan_releasing c) _

variable {s}

/-- The sweep of deleted nodes closes the alerts of the nodes it forgets, and leaves the others
as they are. -/
theorem forgetDeletedNodes_active (hs : s.Consistent) {order : List CheckId}
    (ho : Enumerates order s.active) {a : Alert}
    (ha : (s.forgetDeletedNodes order).1.active c = some a) :
    s.active c = some a ∧ ∀ n, a.node = some n → s.isForgotten n = false := by
  unfold forgetDeletedNodes at ha
  split at ha
  next hempty => exact ⟨ha, fun n _ => by simp [isForgotten, hempty]⟩
  · rw [resolveOrphans_active] at ha
    split at ha
    · simp at ha
    next hmem =>
      refine ⟨ha, fun n hnode => ?_⟩
      by_contra hgone
      simp only [isForgotten, Bool.and_eq_false_iff, not_or, Bool.not_eq_false] at hgone
      refine hmem (mem_map.2 ⟨a, mem_filter.2 ⟨mem_filterMap.2
        ⟨c, ho.covers _ (by rw [ha]; rfl), ha⟩, ?_⟩, (hs.slots _ a ha).check⟩)
      simp [hnode, hgone.2]

/-- Every operation keeps the live states of held nodes. -/
theorem step_heldLive (hs : s.Consistent) {op : Op} (hop : op.Ok s) (h : s.HeldLive) :
    (s.step op).1.HeldLive := by
  by_cases hforget : ∃ order, op = .forgetDeletedNodes order
  · obtain ⟨order, rfl⟩ := hforget
    intro n a ha hh
    obtain ⟨hbefore, hkept⟩ := forgetDeletedNodes_active hs hop ha
    have hnode : a.node = some n := by
      rw [Alert.node, (hs.slots _ a hbefore).subject]
      rfl
    rw [show (s.step (.forgetDeletedNodes order)).1.live n = _ from
      s.forgetDeletedNodes_live order n, hkept n hnode]
    exact h n a hbefore hh
  · rw [step_eq_atoms]
    have hdrop := dropNodes_notMem (s := s) fun order he => hforget ⟨order, he⟩
    exact atoms_invariant (fun s x hmem hs hx => atom_heldLive hs hx fun he => hdrop (he ▸ hmem))
      hs (atomOk_atoms hop) h

/-! ### The Fires of one hold -/

/-- The Fires about a check among a list of actions. -/
def firesOf (c : CheckId) (acts : List NotifyAction) : Nat :=
  (acts.filter fun x => x.check = c).countP isFire

theorem firesOf_append (c : CheckId) (l l' : List NotifyAction) :
    firesOf c (l ++ l') = firesOf c l + firesOf c l' := by
  simp [firesOf]

/-- A step that fires about a check leaves no notification of it held. -/
theorem atom_fires {x : Atom} (hs : s.Consistent) (hx : AtomOk s x) (c : CheckId) :
    firesOf c (atomStep s x).2 ≤ 1 ∧
      (0 < firesOf c (atomStep s x).2 → (atomStep s x).1.held c = none) := by
  obtain ⟨hmoves, hcons⟩ := atom_effect (P := fun _ _ => True) hs hx fun _ _ _ => trivial
  obtain ⟨hone, hended⟩ := (hmoves c).fires
  refine ⟨hone, fun hfire => ?_⟩
  rw [hcons.held]
  exact hended hfire

/-- Closing orphans fires nothing. -/
theorem orphans_no_fire (s : AlertManager) (l : List CheckId) (c : CheckId) :
    firesOf c (emitAll atomStep s (l.map .orphan)).2 = 0 := by
  induction l generalizing s with
  | nil => rfl
  | cons d rest ih =>
    rw [map_cons, emitAll_cons_snd, firesOf_append, ih]
    show firesOf c (s.resolveOrphan d).2 = 0
    rcases s.resolveOrphan_cases d with ⟨_, he⟩ | ⟨_, he⟩ <;> rw [he]
    · rfl
    · rcases s.closeActive_cases d with ⟨_, he'⟩ | ⟨a, _, _, he'⟩ | ⟨a, u, _, _, he'⟩ <;>
        rw [he'] <;> simp [firesOf, isFire]

/-- An operation fires a held notification at most once, and then it is not held any more. -/
theorem step_fires (hs : s.Consistent) {op : Op} (hop : op.Ok s) (hheld : (s.held c).isSome) :
    firesOf c (s.step op).2 ≤ 1 ∧ (0 < firesOf c (s.step op).2 → (s.step op).1.held c = none) := by
  -- The check of a held notification is a liveness check.
  obtain ⟨n, rfl⟩ : ∃ n, c = livenessCheck n := by
    rw [hs.held] at hheld
    cases ha : s.active c with
    | none => simp [ha] at hheld
    | some a =>
      have hok := hs.slots c a ha
      exact hok.shape (hok.held (by simpa [ha] using hheld)).2
  have hsamples : ∀ {s : AlertManager} {l : List Atom}, s.Consistent → (∀ x ∈ l, x.IsSample) →
      firesOf (livenessCheck n) (emitAll atomStep s l).2 = 0 := by
    intro s l hs hl
    rw [firesOf, (samples_effect hs hl).2.2 n]
    rfl
  have hnone : ∀ {acts : List NotifyAction} {s' : AlertManager},
      firesOf (livenessCheck n) acts = 0 → firesOf (livenessCheck n) acts ≤ 1 ∧
        (0 < firesOf (livenessCheck n) acts → s'.held (livenessCheck n) = none) := by
    intro acts s' hzero
    exact ⟨by omega, by omega⟩
  have hatoms := atomOk_atoms hop
  rw [step_eq_atoms]
  cases op with
  | observe result noReading order =>
    obtain ⟨samples, hsam, he⟩ := observeAtoms_split skipHealthy s order result noReading
    simp only [Op.atoms] at hatoms ⊢
    rw [he, along_append] at hatoms
    rw [he, emitAll_append]
    generalize hlive : (if s.config.isPaused result.nodeId result.atUnixMs then []
      else s.livenessAtoms order result) = liveness at hatoms ⊢
    have hcons := atoms_consistent hs hatoms.1
    have hentries := (samples_effect hcons hsam).1.entries n
    have hheld' : (emitAll atomStep (emitAll atomStep s liveness).1 samples).1.held
        (livenessCheck n) = (emitAll atomStep s liveness).1.held (livenessCheck n) :=
      congrArg Entries.held hentries
    rw [firesOf_append, hsamples hcons hsam, hheld']
    -- What is left is the liveness observation, which is one atomic step.
    subst hlive
    split
    · exact hnone rfl
    · unfold livenessAtoms
      split
      · exact hnone rfl
      next hpaused hobs =>
        simp only [hpaused, hobs, livenessAtoms, if_false, Bool.false_eq_true] at hatoms
        rw [emitAll_singleton]
        exact atom_fires hs hatoms.1.1 _
  | observeInterface node ifindex metric value t =>
    exact hnone (hsamples hs fun x => isSample_interfaceAtoms)
  | observeDerived node metric rows t => exact hnone (hsamples hs fun x => isSample_derivedAtoms)
  | resolveOrphanedInterface order | resolveOrphanedNodeDerived order | resolveStale order =>
    exact hnone (s.orphans_no_fire _ _)
  | resolveOrphanedCollected order =>
    simp only [Op.atoms]
    split
    · exact hnone rfl
    · exact hnone (s.orphans_no_fire _ _)
  | forgetDeletedNodes order =>
    simp only [Op.atoms]
    split
    · exact hnone rfl
    · refine hnone ?_
      rw [emitAll_cons_snd, firesOf_append, orphans_no_fire]
      rfl
  | setConfig _ _ | publishIntervals _ | recordRowName _ _ _ _ | regroup _ | releaseHeld _ _
  | raiseEvent _ | resolveEvent _ =>
    simp only [Op.atoms, emitAll_singleton] at hatoms ⊢
    exact atom_fires hs hatoms.1 _

/-- While a hold lasts, and with the operation that ends it, its check is fired at most once. -/
theorem hold_fires (hs : s.Consistent) {u : UnixMs} {ops : List Op}
    (hok : Along (fun s op => op.Ok s) step s ops)
    (hhold : Along (fun s _ => s.held c = some u) step s ops) :
    firesOf c (emitAll step s ops).2 ≤ 1 := by
  induction ops generalizing s with
  | nil => simp [firesOf]
  | cons op rest ih =>
    obtain ⟨hone, hended⟩ := step_fires hs hok.1 (c := c) (by simp [hhold.1])
    rw [emitAll_cons_snd, firesOf_append]
    cases rest with
    | nil => simpa [firesOf] using hone
    | cons op' rest' =>
      -- The hold lasts beyond this operation, so it did not fire.
      have hlasts : (s.step op).1.held c = some u := hhold.2.1
      have hzero : firesOf c (s.step op).2 = 0 := by
        by_contra hne
        rw [hended (Nat.pos_of_ne_zero hne)] at hlasts
        simp at hlasts
      rw [hzero, Nat.zero_add]
      exact ih (step_consistent hs hok.1) hok.2 hhold.2

/-- The held entries are exactly the active alerts that say they are held. Such an alert is a
liveness alert without a root cause of a node committed unreachable. A hold ends in at most one
Fire. -/
theorem held_bookkeeping {rows : List AlertHistoryRow} (hrows : ∀ row ∈ rows, RowOk row)
    {ops : List Op} (hok : Along (fun s op => op.Ok s) step (restored rows) ops) :
    let s := (emitAll step (restored rows) ops).1
    (∀ c u, s.held c = some u ↔ ∃ a, s.active c = some a ∧ a.notifyHeldUntil = some u) ∧
    (∀ c a, s.active c = some a → a.notifyHeldUntil.isSome → ∃ n, c = livenessCheck n ∧
      a.subject = .node n ∧ a.metric = .liveness ∧ a.rootCause = none ∧
      s.live n = some .unreachable ∧
      ∃ cs, s.states c = some cs ∧ cs.committed = .unreachable) ∧
    ∀ c u more, Along (fun s op => op.Ok s) step s more →
      Along (fun s _ => s.held c = some u) step s more →
      firesOf c (emitAll step s more).2 ≤ 1 := by
  intro s
  have hstart : (restored rows).HeldLive := by
    intro n a ha hh
    obtain ⟨row, _, _, rc, rfl⟩ := restored_active ha
    simp [alertFromRow] at hh
  obtain ⟨hlive, hs⟩ := run_invariant (I := HeldLive) (C := fun _ _ => True)
    (fun s op hs hop _ h => step_heldLive hs hop h) (restored_consistent hrows) hok
    (Along.of_forall (fun _ _ _ => trivial) _) hstart
  refine ⟨?_, ?_, fun c u more hmore hhold => hold_fires hs hmore hhold⟩
  · intro c u
    rw [hs.held, Option.bind_eq_some_iff]
  · intro c a ha hh
    have hslot := hs.slots c a ha
    obtain ⟨hroot, hname⟩ := hslot.held hh
    obtain ⟨n, rfl⟩ := hslot.shape hname
    obtain ⟨_, _, hstates⟩ := hs.waiting _ a ha hh
    exact ⟨n, rfl, hslot.subject, hslot.liveness.2 hname, hroot, hlive n a ha hh, hstates⟩

/-- A run after which an outage is held. -/
theorem held_outage_bookkeeping :
    let s := (emitAll step (restored [outageRow 1]) heldOutageOps).1
    (s.held (livenessCheck 1)).isSome = true ∧
    (∀ c u, s.held c = some u ↔ ∃ a, s.active c = some a ∧ a.notifyHeldUntil = some u) ∧
    (∀ c a, s.active c = some a → a.notifyHeldUntil.isSome → ∃ n, c = livenessCheck n ∧
      a.subject = .node n ∧ a.metric = .liveness ∧ a.rootCause = none ∧
      s.live n = some .unreachable ∧
      ∃ cs, s.states c = some cs ∧ cs.committed = .unreachable) ∧
    ∀ c u more, Along (fun s op => op.Ok s) step s more →
      Along (fun s _ => s.held c = some u) step s more →
      firesOf c (emitAll step s more).2 ≤ 1 :=
  ⟨by decide +kernel, held_bookkeeping (outageRow_ok 1) (ok_of_outage_run (by decide +kernel))⟩

end AlertManager

end Yagra
