import Yagra.Proofs.Stages

/-!
# `Yagra.Proofs.Loops`: the loops over the alerts, one check at a time

`reattribute` and `releaseHeld` loop over the alerts in an unspecified order. Each step of
these loops touches only the entries of its own check, so the loop can be read at one check
without the others: `reattribute_at` and `releaseHeld_at`. What a step does to the entries of
a check is a function of the entries, `reattributed` and `released`.

`Slot` is what the loops can change at a check: its alert, its held entry and its release
count. `rest` is everything else.
-/

set_option autoImplicit false

namespace Yagra

open Yagra.Lib Function List
open NotifyAction

/-- What a loop over the alerts can change at one check. -/
structure Slot where
  alert : Option Alert
  held : Option UnixMs
  release : Option Nat

namespace AlertManager

/-- Every alert is filed under its own check. -/
def Keyed (s : AlertManager) : Prop := ∀ c a, s.active c = some a → a.check = c

variable {s : AlertManager} {c : CheckId} {order : List CheckId}

theorem WellFormed.keyed (h : s.WellFormed) : s.Keyed :=
  fun c a ha => (h c a ha).check

/-- The entries of a check. -/
def slot (c : CheckId) (s : AlertManager) : Slot := ⟨s.active c, s.held c, s.releasing c⟩

theorem active_of_slot {x : Slot} (h : s.slot c = x) : s.active c = x.alert := congrArg Slot.alert h

theorem releasing_of_slot {x : Slot} (h : s.slot c = x) : s.releasing c = x.release :=
  congrArg Slot.release h

variable (s)

/-- The engine with the entries of a check replaced. -/
def withSlot (c : CheckId) (x : Slot) : AlertManager :=
  { s with
      active := update s.active c x.alert
      held := update s.held c x.held
      releasing := update s.releasing c x.release }

/-- Everything the loops over the alerts leave alone. -/
def rest : AlertManager :=
  { s with active := fun _ => none, held := fun _ => none, releasing := fun _ => none }

@[simp] theorem slot_withSlot (c : CheckId) (x : Slot) : (s.withSlot c x).slot c = x := by
  simp [slot, withSlot]

theorem slot_withSlot_of_ne {d : CheckId} (h : d ≠ c) (x : Slot) :
    (s.withSlot c x).slot d = s.slot d := by
  simp [slot, withSlot, h]

@[simp] theorem rest_withSlot (c : CheckId) (x : Slot) : (s.withSlot c x).rest = s.rest := rfl

/-- Writing back the entries a check has changes nothing. -/
@[simp] theorem withSlot_slot (c : CheckId) : s.withSlot c (s.slot c) = s := by
  simp [slot, withSlot]

variable {s}

/-- A loop step that rewrites the entries of its own check by a function of them, keeping
alerts under their checks, is local to that check. -/
theorem local_of_slotwise {α : Type} {f : AlertManager → α → Outcome} {key : α → CheckId}
    {g : AlertManager → α → Slot → Slot × List NotifyAction}
    (hf : ∀ s a, f s a = (s.withSlot (key a) (g s.rest a (s.slot (key a))).1,
      (g s.rest a (s.slot (key a))).2))
    (hg : ∀ e a x, (∀ b, x.alert = some b → b.check = key a) →
      (∀ b, (g e a x).1.alert = some b → b.check = key a) ∧
        ∀ act ∈ (g e a x).2, act.check = key a) :
    Local f Keyed key check slot rest where
  inv_step := by
    intro s a hs c b hb
    rw [hf] at hb
    by_cases hc : c = key a
    · subst hc
      refine (hg s.rest a (s.slot (key a)) (hs (key a))).1 b ?_
      simpa [withSlot] using hb
    · exact hs c b (by simpa [withSlot, hc] using hb)
  frame := by
    intro s a k _ hk
    rw [hf]
    exact s.slot_withSlot_of_ne hk _
  env_eq := by
    intro s a
    rw [hf, rest_withSlot]
  out := by
    intro s a hs b hb
    rw [hf] at hb
    exact (hg s.rest a (s.slot (key a)) (hs (key a))).2 b hb
  det := by
    intro s s' a hrest hslot
    rw [hf, hf, hrest, hslot]
    simp

/-! ### Re-attribution -/

/-- What re-attribution does to the entries of an alert `a` whose new root cause is `rc`, with
the alert's held entry and release count as they are. -/
def reattributed (rc : Option NodeId) (a : Alert) (held : Option UnixMs) (release : Option Nat) :
    Slot × List NotifyAction :=
  if a.metric.isEvent ∧ rc.isNone then (⟨some { a with rootCause := none }, held, release⟩, [])
  else if a.metric = .liveness ∧ a.notifyHeldUntil.isSome then
    if rc.isSome then
      (⟨some { a with rootCause := rc, notifyHeldUntil := none }, none, release⟩,
        [.fire { a with rootCause := rc, notifyHeldUntil := none }])
    else (⟨some a, held, release⟩, [])
  else if a.metric ≠ .liveness ∧ rc.isNone ∧ a.rootCause.isSome then
    (⟨some a, held, some 0⟩, [])
  else
    (⟨some { a with rootCause := rc }, held,
        if a.metric ≠ .liveness ∧ rc.isSome then none else release⟩,
      causeActions a.rootCause rc { a with rootCause := rc })

variable (attribution : NodeId → Option NodeId) (down : OrdSet NodeId)

/-- The step of the loop as a function of the entries of the alert's check, which may have
changed since the alert was listed. -/
def reattributeEntry (alert : Alert) (x : Slot) : Slot × List NotifyAction :=
  match alert.node with
  | none => (x, [])
  | some alertNode =>
    let newRc := newRootCause attribution down alert.metric alertNode
    if alert.metric.isEvent ∧ newRc.isNone then
      if alert.rootCause.isSome then
        ({ x with alert := x.alert.map fun cur => { cur with rootCause := none } }, [])
      else (x, [])
    else if alert.metric = .liveness ∧ alert.notifyHeldUntil.isSome then
      if newRc.isSome then
        match x.alert with
        | none => (x, [])
        | some cur =>
          ({ x with
              alert := some { cur with rootCause := newRc, notifyHeldUntil := none }
              held := none },
            [.fire { cur with rootCause := newRc, notifyHeldUntil := none }])
      else (x, [])
    else if alert.metric ≠ .liveness ∧ newRc.isNone ∧ alert.rootCause.isSome then
      ({ x with release := some 0 }, [])
    else
      let release := if alert.metric ≠ .liveness ∧ newRc.isSome then none else x.release
      if newRc = alert.rootCause then ({ x with release := release }, [])
      else
        match x.alert with
        | none => ({ x with release := release }, [])
        | some cur =>
          ({ x with alert := some { cur with rootCause := newRc }, release := release },
            causeActions alert.rootCause newRc { cur with rootCause := newRc })

/-- Writing the value an entry has changes nothing. -/
theorem update_of_apply_eq {ν : Type} {m : CheckId → ν} {v : ν} (h : m c = v) :
    update m c v = m := by
  rw [← h, update_eq_self]

theorem reattributeOne_eq (s : AlertManager) (alert : Alert) :
    reattributeOne attribution down s alert
      = (s.withSlot alert.check (reattributeEntry attribution down alert (s.slot alert.check)).1,
          (reattributeEntry attribution down alert (s.slot alert.check)).2) := by
  unfold reattributeOne reattributeEntry
  cases alert.node with
  | none => simp
  | some n =>
    simp only
    split
    · split
      · cases ha : s.active alert.check <;>
          simp [slot, withSlot, setActive, ha, update_of_apply_eq]
      · simp
    · split
      · split
        · cases ha : s.active alert.check <;>
            simp [slot, withSlot, setActive, unhold, ha, update_of_apply_eq]
        · simp
      · split
        · simp [slot, withSlot]
        · -- The release count is given up first, or not.
          generalize newRootCause attribution down alert.metric n = rc
          by_cases hrel : alert.metric ≠ .liveness ∧ rc.isSome <;>
            simp only [hrel, if_true, if_false, ne_eq, not_false_eq_true, and_self] <;>
            by_cases hrc : rc = alert.rootCause <;> simp only [hrc, if_true, if_false] <;>
            cases ha : s.active alert.check <;>
            simp [slot, withSlot, setActive, ha, update_of_apply_eq]

/-- For an alert that is still what it was when it was listed, the step is `reattributed`. -/
theorem reattributeEntry_self {attribution : NodeId → Option NodeId} {down : OrdSet NodeId}
    {a : Alert} {n : NodeId} (hn : a.node = some n) (held : Option UnixMs)
    (release : Option Nat) :
    reattributeEntry attribution down a ⟨some a, held, release⟩
      = reattributed (newRootCause attribution down a.metric n) a held release := by
  unfold reattributeEntry reattributed
  simp only [hn]
  split
  · split
    · rfl
    next hroot =>
      cases a
      simp_all
  · split
    · split <;> rfl
    · split
      · rfl
      · generalize newRootCause attribution down a.metric n = rc
        by_cases hrel : a.metric ≠ .liveness ∧ rc.isSome <;>
          simp only [hrel, if_true, if_false, ne_eq, not_false_eq_true, and_self] <;>
          by_cases hrc : rc = a.rootCause
        · -- An unchanged root cause writes the alert back as it is and asks for nothing.
          subst hrc
          cases hr : a.rootCause <;> simp [causeActions, ← hr]
        · simp [hrc]
        · subst hrc
          cases hr : a.rootCause <;> simp [causeActions, ← hr]
        · simp [hrc]

theorem reattributeOne_local :
    Local (reattributeOne attribution down) Keyed Alert.check check slot rest := by
  refine local_of_slotwise (g := fun _ => reattributeEntry attribution down)
    (fun s a => reattributeOne_eq attribution down s a) ?_
  intro _ a x hx
  unfold reattributeEntry
  cases a.node with
  | none => exact ⟨hx, by simp⟩
  | some n =>
    simp only
    have hacts : ∀ cur : Alert, cur.check = a.check → ∀ old new : Option NodeId,
        ∀ act ∈ causeActions old new { cur with rootCause := new }, act.check = a.check := by
      intro cur hcur old new act hact
      unfold causeActions at hact
      split at hact <;> simp_all [check, alert]
    cases hxa : x.alert with
    | none =>
      split
      · split <;> simp [hxa]
      · split
        · split <;> simp [hxa]
        · split
          · simp
          · split <;> simp
    | some cur =>
      have hcur := hx cur hxa
      split
      · split <;> simp [hxa, hcur]
      · split
        · split <;> simp [hxa, hcur]
        · split
          · simp [hcur]
          · split
            · simp [hcur]
            · exact ⟨by simp [hcur], hacts cur hcur _ _⟩

/-- The checks of the alerts a loop lists, in the order they are visited in. -/
theorem map_check_filterMap (hk : s.Keyed) (order : List CheckId) :
    (order.filterMap s.active).map Alert.check = order.filter fun c => (s.active c).isSome := by
  induction order with
  | nil => rfl
  | cons c rest ih =>
    cases ha : s.active c with
    | none => simpa [ha] using ih
    | some a => simpa [ha, hk c a ha] using ih

/-- The alerts a loop over the active set lists have distinct checks. -/
theorem nodup_map_check (hk : s.Keyed) (hn : order.Nodup) (p : Alert → Bool) :
    (((order.filterMap s.active).filter p).map Alert.check).Nodup := by
  have hsub : (((order.filterMap s.active).filter p).map Alert.check).Sublist
      ((order.filterMap s.active).map Alert.check) := filter_sublist.map _
  refine hsub.nodup ?_
  rw [map_check_filterMap hk]
  exact hn.filter _

/-- What re-attribution leaves and emits at one check. -/
def reattributedAt (s : AlertManager) (changed : Option NodeId) (c : CheckId) :
    Slot × List NotifyAction :=
  let attribution := s.config.grouping.attributeDown s.down
  match s.active c with
  | none => (s.slot c, [])
  | some a =>
    match a.node with
    | none => (s.slot c, [])
    | some n =>
      if isCandidate attribution changed a then
        reattributed (newRootCause attribution s.down a.metric n) a (s.held c) (s.releasing c)
      else (s.slot c, [])

/-- Re-attribution, one check at a time. The order the alerts are visited in does not
matter. -/
theorem reattribute_at (hk : s.Keyed) (hn : order.Nodup) (changed : Option NodeId)
    (hcov : ∀ c a, s.active c = some a →
      isCandidate (s.config.grouping.attributeDown s.down) changed a = true → c ∈ order)
    (c : CheckId) :
    (s.reattribute order changed).1.slot c = (s.reattributedAt changed c).1 ∧
      (s.reattribute order changed).2.filter (fun x => x.check = c)
        = (s.reattributedAt changed c).2 := by
  have hloc := reattributeOne_local (s.config.grouping.attributeDown s.down) s.down
  have hnodup := nodup_map_check hk hn
    (isCandidate (s.config.grouping.attributeDown s.down) changed)
  unfold reattribute reattributedAt
  -- A check without a listed alert keeps its entries.
  have hskip : (∀ a, s.active c = some a →
      isCandidate (s.config.grouping.attributeDown s.down) changed a = false) →
      c ∉ ((order.filterMap s.active).filter
        (isCandidate (s.config.grouping.attributeDown s.down) changed)).map Alert.check := by
    intro hnone hmem
    obtain ⟨a, ha, rfl⟩ := mem_map.1 hmem
    obtain ⟨ha, hcand⟩ := mem_filter.1 ha
    obtain ⟨d, _, hd⟩ := mem_filterMap.1 ha
    rw [hk d a hd] at hnone
    simp [hnone a hd] at hcand
  cases ha : s.active c with
  | none => exact hloc.emitAll_of_notMem (hskip (by simp [ha])) hk
  | some a =>
    simp only
    have hcheck := hk c a ha
    cases hnode : a.node with
    | none =>
      refine hloc.emitAll_of_notMem (hskip ?_) hk
      intro b hb
      cases ha.symm.trans hb
      simp [isCandidate, hnode]
    | some n =>
      simp only
      split
      next hcand =>
        have hmem : a ∈ (order.filterMap s.active).filter
            (isCandidate (s.config.grouping.attributeDown s.down) changed) :=
          mem_filter.2 ⟨mem_filterMap.2 ⟨c, hcov c a ha hcand, ha⟩, hcand⟩
        have h := hloc.emitAll_of_mem hnodup hmem hk
        rw [reattributeOne_eq, slot_withSlot, hcheck] at h
        have hslot : s.slot c = ⟨some a, s.held c, s.releasing c⟩ := by simp [slot, ha]
        rw [hslot, reattributeEntry_self hnode] at h
        exact h
      next hcand =>
        refine hloc.emitAll_of_notMem (hskip ?_) hk
        intro b hb
        cases ha.symm.trans hb
        simpa using hcand

/-- Re-attribution changes nothing of an alert but its root cause and its hold. -/
theorem reattributedAt_alert {changed : Option NodeId} {a' : Alert}
    (h : (s.reattributedAt changed c).1.alert = some a') :
    ∃ a rc u, s.active c = some a ∧ a' = { a with rootCause := rc, notifyHeldUntil := u } := by
  unfold reattributedAt at h
  cases ha : s.active c with
  | none => simp [ha, slot] at h
  | some a =>
    simp only [ha, slot] at h
    cases hn : a.node with
    | none =>
      simp only [hn, Option.some.injEq] at h
      exact ⟨a, a.rootCause, a.notifyHeldUntil, rfl, h.symm⟩
    | some n =>
      simp only [hn] at h
      unfold reattributed at h
      split_ifs at h <;> simp only [Option.some.injEq] at h <;>
        exact ⟨a, _, _, rfl, h.symm⟩

/-- Re-attribution leaves everything but the entries of the alerts alone. -/
theorem reattribute_rest (s : AlertManager) (order : List CheckId) (changed : Option NodeId) :
    (s.reattribute order changed).1.rest = s.rest :=
  (reattributeOne_local _ _).emitAll_env s _

/-! ### Releasing held notifications -/

/-- What releasing a held notification does to the entries of its check. `e` is the rest of
the engine. -/
def released (e : AlertManager) (now : UnixMs) (heldUntil : UnixMs) (x : Slot) :
    Slot × List NotifyAction :=
  match x.alert with
  | none => ({ x with held := none }, [])
  | some a =>
    match a.node with
    | none => (x, [])
    | some node =>
      let stillWaiting := e.config.groupingWait && decide (e.config.grouping.levelOf node ≠ .off)
      if e.config.isPaused node now then (x, [])
      else if stillWaiting = true ∧ now < heldUntil ∧ e.failingNeighbours node ≠ [] then (x, [])
      else if a.notifyHeldUntil.isSome then
        ({ x with alert := some { a with notifyHeldUntil := none }, held := none },
          [.fire { a with notifyHeldUntil := none }])
      else ({ x with held := none }, [])

theorem releaseOne_eq (now : UnixMs) (s : AlertManager) (entry : CheckId × UnixMs) :
    releaseOne now s entry
      = (s.withSlot entry.1 (released s.rest now entry.2 (s.slot entry.1)).1,
          (released s.rest now entry.2 (s.slot entry.1)).2) := by
  obtain ⟨c, u⟩ := entry
  have hself : s.withSlot c ⟨s.active c, s.held c, s.releasing c⟩ = s := s.withSlot_slot c
  have hfail : ∀ n, s.rest.failingNeighbours n = s.failingNeighbours n := fun _ => rfl
  have hcfg : s.rest.config = s.config := rfl
  simp only [releaseOne, released, slot, hfail, hcfg]
  cases ha : s.active c with
  | none =>
    simp [withSlot, unhold, update_of_apply_eq, ha]
  | some a =>
    rw [ha] at hself
    simp only
    cases a.node with
    | none => simp only [hself]
    | some n =>
      simp only
      split
      · simp only [hself]
      · split
        · simp only [hself]
        · split
          · simp [withSlot, setActive, unhold]
          · simp [withSlot, unhold, update_of_apply_eq, ha]

theorem releaseOne_local (now : UnixMs) :
    Local (releaseOne now) Keyed Prod.fst check slot rest := by
  refine local_of_slotwise (g := fun e entry => released e now entry.2)
    (fun s a => releaseOne_eq now s a) ?_
  intro e entry x hx
  unfold released
  cases hxa : x.alert with
  | none => simp
  | some a =>
    have hcheck := hx a hxa
    simp only
    cases a.node with
    | none => exact ⟨hxa ▸ hx, by simp⟩
    | some n =>
      simp only
      split
      · exact ⟨hxa ▸ hx, by simp⟩
      · split
        · exact ⟨hxa ▸ hx, by simp⟩
        · split
          · simp [hcheck]
          · simp [hcheck]

/-- What a release pass leaves and emits at one check. -/
def releasedAt (s : AlertManager) (now : UnixMs) (c : CheckId) : Slot × List NotifyAction :=
  match s.held c with
  | none => (s.slot c, [])
  | some u => released s.rest now u (s.slot c)

/-- A release pass, one check at a time. -/
theorem releaseHeld_at (hk : s.Keyed) (ho : Enumerates order s.held) (now : UnixMs) (c : CheckId) :
    (s.releaseHeld order now).1.slot c = (s.releasedAt now c).1 ∧
      (s.releaseHeld order now).2.filter (fun x => x.check = c) = (s.releasedAt now c).2 := by
  have hloc := releaseOne_local now
  have hmap : (order.filterMap fun c => (s.held c).map fun u => (c, u)).map Prod.fst
      = order.filter fun c => (s.held c).isSome := by
    clear ho
    induction order with
    | nil => rfl
    | cons d rest ih => cases hd : s.held d <;> simpa [hd] using ih
  unfold releaseHeld releasedAt
  cases hc : s.held c with
  | none =>
    refine hloc.emitAll_of_notMem ?_ hk
    simp [hc]
  | some u =>
    have hmem : (c, u) ∈ order.filterMap fun c => (s.held c).map fun u => (c, u) :=
      mem_filterMap.2 ⟨c, ho.covers c (by simp [hc]), by simp [hc]⟩
    have h := hloc.emitAll_of_mem (by rw [hmap]; exact ho.nodup.filter _) hmem hk
    rw [releaseOne_eq, slot_withSlot] at h
    exact h

/-- A release pass changes nothing of an alert but its hold. -/
theorem releasedAt_alert {now : UnixMs} {a' : Alert} (h : (s.releasedAt now c).1.alert = some a') :
    ∃ a u, s.active c = some a ∧ a' = { a with notifyHeldUntil := u } := by
  unfold releasedAt at h
  cases hu : s.held c with
  | none =>
    simp only [hu, slot] at h
    exact ⟨a', a'.notifyHeldUntil, h, rfl⟩
  | some u =>
    simp only [hu, released, slot] at h
    cases ha : s.active c with
    | none => simp [ha] at h
    | some a =>
      simp only [ha] at h
      cases hn : a.node with
      | none =>
        simp only [hn, Option.some.injEq] at h
        exact ⟨a, a.notifyHeldUntil, rfl, h.symm⟩
      | some n =>
        simp only [hn] at h
        split_ifs at h <;> simp only [Option.some.injEq] at h <;> exact ⟨a, _, rfl, h.symm⟩

variable (s) (c)

/-- A release pass leaves everything but the entries of the alerts alone. -/
theorem releaseHeld_rest (order : List CheckId) (now : UnixMs) :
    (s.releaseHeld order now).1.rest = s.rest :=
  (releaseOne_local now).emitAll_env s _

/-! ### Closing the alerts of a list of checks -/

/-- Closing an orphan does nothing when the check has no alert; otherwise it closes the alert
and forgets the check's state. -/
theorem resolveOrphan_cases :
    (s.active c = none ∧ s.resolveOrphan c = (s, [])) ∨
    ((s.active c).isSome ∧ s.resolveOrphan c
      = ({ (s.closeActive c).1 with states := update s.states c none }, (s.closeActive c).2)) := by
  unfold resolveOrphan
  cases ha : s.active c with
  | none => exact .inl ⟨rfl, rfl⟩
  | some a =>
    refine .inr ⟨rfl, ?_⟩
    show ({ (s.closeActive c).1 with
      states := update (s.closeActive c).1.states c none }, (s.closeActive c).2) = _
    rw [closeActive_states]

/-- Closing an orphan empties the check's slot. -/
theorem resolveOrphan_active : (s.resolveOrphan c).1.active = update s.active c none := by
  rcases s.resolveOrphan_cases c with ⟨ha, he⟩ | ⟨_, he⟩
  · rw [he, ← ha, update_eq_self]
  · rw [he]
    exact s.closeActive_active c

/-- Closing an orphan touches the active set, the states and the held entries only. -/
theorem resolveOrphan_frame :
    (s.resolveOrphan c).1 = { s with
      active := (s.resolveOrphan c).1.active
      states := (s.resolveOrphan c).1.states
      held := (s.resolveOrphan c).1.held } := by
  rcases s.resolveOrphan_cases c with ⟨_, he⟩ | ⟨_, he⟩ <;> rw [he]
  rw [closeActive_frame]

/-- The alerts of the listed checks are closed, and no others. -/
theorem resolveOrphans_active (l : List CheckId) (c : CheckId) :
    (s.resolveOrphans l).1.active c = if c ∈ l then none else s.active c := by
  unfold resolveOrphans
  induction l generalizing s with
  | nil => simp
  | cons d rest ih =>
    rw [emitAll_cons_fst, ih, resolveOrphan_active]
    by_cases hd : c = d
    · simp [hd]
    · simp [hd]

variable {s} {c}

end AlertManager

end Yagra
