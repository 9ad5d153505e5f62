import Yagra.Events.Engine
import Yagra.Proofs.Runs

/-!
# `Yagra.Proofs.EventAlerts`: every open event alert has a deadline

The event engine keeps the deadlines, the alert manager the alerts. `planRule_effect` says what
one rule does to both: nothing, or it takes the rule's check out of both, or it sets the deadline
and the alert is there. So the two sets change together (`Tracked`), and every deadline is the
time of a match and the rule's time to live (`Dated`).

A restart breaks the first. The open alerts of the history come back into the manager, and the
deadlines do not come back. `restored_event_alert_stuck` is such a run: neither the clear pattern
nor a sweep closes the alert. `event_alerts_tracked` is about the runs in which no event alert is
restored. A clear message must also reach the planner: one that repeats a message of the last
seconds is dropped before it.
-/

set_option autoImplicit false

namespace Yagra.Events

open Yagra.Lib AlertManager List
open Function (update update_self)

/-! ### What one rule does -/

namespace Planned

@[simp] theorem bump_runtime (p : Planned) (action : EventAction) (rule : RuleId) :
    (p.bump action rule).runtime = p.runtime := by
  rw [bump]
  split <;> rfl

@[simp] theorem bump_manager (p : Planned) (action : EventAction) (rule : RuleId) :
    (p.bump action rule).manager = p.manager := by
  rw [bump]
  split <;> rfl

end Planned

@[simp] theorem gatePasses_active (rt : Runtime) (rule : CompiledRule) (node : NodeId)
    (now : UnixMs) : (rt.gatePasses rule node now).1.active = rt.active := by
  rw [Runtime.gatePasses]
  split <;> rfl

/-- What a rule that applies does to the deadline and to the alert of its check on the node. -/
inductive RuleEffect (haystack : String) (node : NodeId) (now : UnixMs) (rule : CompiledRule)
    (p p' : Planned) : Prop
  | idle (hactive : p'.runtime.active = p.runtime.active) (hmanager : p'.manager = p.manager)
  | cleared (hhit : rule.clearHit haystack = true)
      (hactive : p'.runtime.active = update p.runtime.active (rule.check node) none)
      (hmanager : p'.manager.active = update p.manager.active (rule.check node) none)
      (hconfig : p'.manager.config = p.manager.config)
  | fired (hhit : rule.fireHit haystack = true)
      (hactive : p'.runtime.active
        = update p.runtime.active (rule.check node) (some (now + rule.ttlMs)))
      {alert : Option Alert}
      (hmanager : p'.manager.active = update p.manager.active (rule.check node) alert)
      (hopen : (p.runtime.active (rule.check node)).isSome →
        alert = p.manager.active (rule.check node))
      (hraised : p.runtime.active (rule.check node) = none → alert.isSome)
      (hconfig : p'.manager.config = p.manager.config)

variable {rule : CompiledRule} {node : NodeId} {p p' : Planned} {haystack : String} {now : UnixMs}

theorem clear_effect (hhit : rule.clearHit haystack = true) (p : Planned) :
    RuleEffect haystack node now rule p (p.clear (rule.check node)) := by
  rw [Planned.clear]
  split
  next => exact .idle rfl rfl
  next =>
    refine .cleared hhit rfl (p.manager.closeActive_active _) ?_
    show (p.manager.closeActive _).1.config = p.manager.config
    rw [closeActive_frame]

theorem fire_effect {msg : EventMsg} (hhit : rule.fireHit msg.haystack = true) (now : UnixMs)
    (p : Planned) : RuleEffect msg.haystack node now rule p (p.fire msg rule node now) := by
  rw [Planned.fire]
  split
  next deadline hdeadline =>
    refine .fired hhit (by simp [Runtime.arm]) (by simp) (fun _ => rfl) ?_ (by simp)
    simp [hdeadline]
  next hnone =>
    obtain ⟨b, hb, hactive, hconfig⟩ := p.manager.raiseEventAlert_active
      (Raised.event node rule.id rule.name rule.severity msg.atUnixMs).alert
    refine .fired hhit (by simp [Runtime.arm]) ?_ ?_ (fun _ => hb) ?_
    · rw [Planned.bump_manager]
      exact hactive
    · simp [hnone]
    · rw [Planned.bump_manager]
      exact hconfig

/-- Two plans that the effect of a rule does not tell apart. -/
theorem RuleEffect.congr {q q' : Planned} (h : RuleEffect haystack node now rule p p')
    (hactive : p.runtime.active = q.runtime.active) (hmanager : p.manager = q.manager)
    (hactive' : p'.runtime.active = q'.runtime.active) (hmanager' : p'.manager = q'.manager) :
    RuleEffect haystack node now rule q q' := by
  cases h with
  | idle ha hm => exact .idle (by rw [← hactive', ha, hactive]) (by rw [← hmanager', hm, hmanager])
  | cleared hhit ha hm hc =>
    rw [hactive, hactive'] at ha
    rw [hmanager, hmanager'] at hm hc
    exact .cleared hhit ha hm hc
  | fired hhit ha hm hopen hraised hc =>
    rw [hactive, hactive'] at ha
    rw [hmanager, hmanager'] at hm hc
    rw [hactive] at hopen hraised
    rw [hmanager] at hopen
    exact .fired hhit ha hm hopen hraised hc

theorem planRule_effect (msg : EventMsg) (node : NodeId) (now : UnixMs) (inMaintenance : Bool)
    (p : Planned) (rule : CompiledRule) :
    RuleEffect msg.haystack node now rule p (planRule msg node now inMaintenance p rule) := by
  simp only [planRule]
  split
  next => exact .idle rfl rfl
  next hhit =>
    split
    next => exact .idle (by simp) (by simp)
    next =>
      split
      next hclear => exact (clear_effect hclear p).congr rfl rfl (by simp) (by simp)
      next hclear =>
        have hfire : rule.fireHit msg.haystack = true := by simpa [hclear] using hhit
        split
        next => exact .idle (by simp) (by simp)
        next =>
          split
          next =>
            have hfired : RuleEffect msg.haystack node now rule
                { p with runtime := (p.runtime.gatePasses rule node now).1 } _ :=
              fire_effect hfire now _
            exact hfired.congr (gatePasses_active p.runtime rule node now) rfl rfl rfl
          next => exact .idle (by simp) (by simp)

section

variable (h : RuleEffect haystack node now rule p p')

include h

/-- A rule does nothing to the checks of other rules. -/
theorem RuleEffect.other {c : CheckId} (hc : c ≠ rule.check node) :
    p'.runtime.active c = p.runtime.active c ∧ p'.manager.active c = p.manager.active c := by
  cases h with
  | idle ha hm => rw [ha, hm]; exact ⟨rfl, rfl⟩
  | cleared _ ha hm _ | fired _ ha hm _ _ _ => rw [ha, hm]; simp [hc]

theorem RuleEffect.config : p'.manager.config = p.manager.config := by
  cases h with
  | idle _ hm => rw [hm]
  | cleared _ _ _ hc => exact hc
  | fired _ _ _ _ _ hc => exact hc

/-- The alert of a check has a deadline. -/
def Planned.tracked (p : Planned) (c : CheckId) : Prop :=
  (p.manager.active c).isSome → (p.runtime.active c).isSome

theorem RuleEffect.tracked {c : CheckId} (hp : p.tracked c) : p'.tracked c := by
  by_cases hc : c = rule.check node
  · subst hc
    rw [Planned.tracked] at hp ⊢
    cases h with
    | idle ha hm => rwa [ha, hm]
    | cleared _ ha hm _ => simp [hm]
    | fired _ ha _ _ _ _ => simp [ha]
  · obtain ⟨hactive, hmanager⟩ := h.other hc
    rwa [Planned.tracked, hactive, hmanager]

end

/-- A clear of a tracked alert closes it. -/
theorem planRule_clears {msg : EventMsg} (hhit : rule.clearHit msg.haystack = true)
    (hp : p.tracked (rule.check node)) :
    (planRule msg node now false p rule).manager.active (rule.check node) = none := by
  have hplan : planRule msg node now false p rule
      = (p.clear (rule.check node)).bump .cleared rule.id := by
    simp [planRule, hhit]
  rw [hplan, Planned.bump_manager, Planned.clear]
  split
  next hnone =>
    rw [Planned.tracked, hnone] at hp
    simpa using hp
  next =>
    show (p.manager.closeActive _).1.active _ = none
    rw [closeActive_active, update_self]

/-! ### One event -/

theorem check_inj {rule' : CompiledRule} (h : rule.check node = rule'.check node) :
    rule.id = rule'.id := by
  simpa [CompiledRule.check, checkId, subjectCheckId] using h

namespace EventSystem

variable {s : EventSystem} {a : Arrival} {node : NodeId} {now : UnixMs}

/-- The loop over the rules keeps what every rule keeps. -/
theorem plan_invariant {I : Planned → Prop} (a : Arrival) (node : NodeId) (now : UnixMs)
    (hstep : ∀ p, ∀ rule ∈ s.rulesFor a node, ∀ p',
      RuleEffect a.msg.haystack node now rule p p' → I p → I p')
    (hs : ∀ rowAction matchedRule actions,
      I ⟨s.runtime, s.manager, rowAction, matchedRule, actions⟩) : I (s.plan a node now) := by
  refine foldlRecOn (motive := I) _ _ (hs _ _ _) ?_
  intro p hp rule hrule
  exact hstep p rule hrule _ (planRule_effect a.msg node now _ p rule) hp

/-- The rules that apply have distinct ids. -/
theorem rulesFor_distinct (s : EventSystem) (a : Arrival) (node : NodeId) :
    ((s.rulesFor a node).map (·.id)).Nodup :=
  s.snapshot.distinct.sublist (filter_sublist.map _)

/-- An event that hits the clear pattern of a rule closes the rule's alert. -/
theorem plan_clears (hrule : rule ∈ s.rulesFor a node) (hhit : rule.clearHit a.msg.haystack = true)
    (hquiet : s.inMaintenance node now = false)
    (htracked : (s.manager.active (rule.check node)).isSome →
      (s.runtime.active (rule.check node)).isSome) :
    (s.plan a node now).manager.active (rule.check node) = none := by
  rw [plan, hquiet]
  -- Only the rule itself touches its check, and it is tried once.
  have hother : ∀ (J : Option UnixMs → Option Alert → Prop) (p : Planned) (r : CompiledRule),
      decide (r.id = rule.id) = false →
      J (p.runtime.active (rule.check node)) (p.manager.active (rule.check node)) →
      J ((planRule a.msg node now false p r).runtime.active (rule.check node))
        ((planRule a.msg node now false p r).manager.active (rule.check node)) := by
    intro J p r hr hJ
    have hne : rule.check node ≠ r.check node := by
      intro h
      simp [check_inj h] at hr
    obtain ⟨hactive, hmanager⟩ := (planRule_effect a.msg node now false p r).other hne
    rwa [hactive, hmanager]
  have honly : (s.rulesFor a node).filter (fun r => decide (r.id = rule.id)) = [rule] :=
    filter_key_eq_singleton (s.rulesFor_distinct a node) hrule
  refine foldl_of_filter (p := fun r : CompiledRule => decide (r.id = rule.id))
    (J := fun p => p.tracked (rule.check node))
    (K := fun p => p.manager.active (rule.check node) = none) (by rw [honly]; simp)
    (fun p r hr => hother (fun t m => m.isSome → t.isSome) p r hr)
    (fun p r hr => hother (fun _ m => m = none) p r hr) ?_ ?_
  · intro p hp
    rw [honly]
    exact planRule_clears hhit hp
  · exact htracked

/-! ### The two sets -/

variable (s)

/-- Every open event alert has a deadline. -/
def Tracked : Prop :=
  ∀ c : CheckId, c.name.isEvent = true → (s.manager.active c).isSome → (s.runtime.active c).isSome

/-- Every deadline is that of a recorded match. -/
def Dated : Prop :=
  ∀ c t, s.runtime.active c = some t → ∃ m ∈ s.matched, m.check = c ∧ t = m.atMs + m.ttlMs

/-- Dropping an event only records it. -/
theorem drop_eq (a : Arrival) (now : UnixMs) :
    s.drop a now = { s with dropped := (s.drop a now).dropped } := by
  rw [drop]
  split <;> rfl

variable {s}

theorem Tracked.take (h : s.Tracked) (a : Arrival) (now : UnixMs) : (s.take a now).1.Tracked := by
  rw [EventSystem.take]
  split
  next => exact h
  next node _ =>
    intro c hc
    exact plan_invariant (I := fun p => p.tracked c) a node now
      (fun _ _ _ _ heffect => heffect.tracked) fun _ _ _ => h c hc

theorem Dated.take (h : s.Dated) (a : Arrival) (now : UnixMs) : (s.take a now).1.Dated := by
  rw [EventSystem.take]
  split
  next => exact h
  next node _ =>
    refine plan_invariant (I := fun p => ∀ c t, p.runtime.active c = some t →
      ∃ m ∈ s.matched ++ s.matchesOf a node now, m.check = c ∧ t = m.atMs + m.ttlMs) a node now
      ?_ ?_
    · intro p rule hrule p' heffect hp c t ht
      by_cases hc : c = rule.check node
      · subst hc
        cases heffect with
        | idle hactive _ => exact hp _ t (hactive ▸ ht)
        | cleared _ hactive _ _ => simp [hactive] at ht
        | fired hhit hactive _ _ _ _ =>
          rw [hactive, update_self] at ht
          cases ht
          refine ⟨⟨rule.check node, now, rule.ttlMs⟩, mem_append_right _ ?_, rfl, rfl⟩
          exact mem_map.2 ⟨rule, mem_filter.2 ⟨hrule, hhit⟩, rfl⟩
      · rw [(heffect.other hc).1] at ht
        exact hp c t ht
    · intro _ _ _ c t ht
      obtain ⟨m, hm, hcheck⟩ := h c t ht
      exact ⟨m, mem_append_left _ hm, hcheck⟩

/-- The repeat test touches only what it remembers. -/
theorem isDuplicate_frame (rt : Runtime) (key : Nat) (now : UnixMs) :
    (rt.isDuplicate key now).1.active = rt.active ∧
      (rt.isDuplicate key now).1.counters = rt.counters := by
  simp only [Runtime.isDuplicate]
  split <;> exact ⟨rfl, rfl⟩

variable (s)

theorem emitAll_expire_active (l : List CheckId) (c : CheckId) :
    (emitAll expire s l).1.runtime.active c = (if c ∈ l then none else s.runtime.active c) ∧
    (emitAll expire s l).1.manager.active c = if c ∈ l then none else s.manager.active c := by
  induction l generalizing s with
  | nil => simp
  | cons first rest ih =>
    obtain ⟨hactive, hmanager⟩ := ih (s.expire first).1
    have hclosed : (s.expire first).1.manager.active
        = update s.manager.active first none := s.manager.closeActive_active first
    rw [emitAll_cons_fst, hactive, hmanager, hclosed]
    by_cases hc : c = first
    · simp [expire, Runtime.disarm, hc]
    · simp [expire, Runtime.disarm, hc]

/-- What a sweep leaves of a check. -/
theorem sweep_active (now : UnixMs) (order : List CheckId) (c : CheckId) :
    ((s.sweep now order).1.runtime.active c
      = if c ∈ s.expired now order then none else s.runtime.active c) ∧
    (s.sweep now order).1.manager.active c
      = if c ∈ s.expired now order then none else s.manager.active c :=
  emitAll_expire_active s (s.expired now order) c

/-- A sweep records no match. -/
theorem sweep_matched (now : UnixMs) (order : List CheckId) :
    (s.sweep now order).1.matched = s.matched :=
  emitAll_frame expire (π := EventSystem.matched) (fun _ _ _ => rfl) s

/-! ### Every run -/

variable {s}

/-- No event alert comes back from the history. -/
def Op.restoresNoEvent : Op → Bool
  | .restart rows deleted => (rows ++ deleted).all fun row => !row.check.name.isEvent
  | _ => true

/-- An alert that came back is that of a stored row. -/
theorem restart_active {rows deleted : List AlertHistoryRow} {c : CheckId}
    (h : ((s.restart rows deleted).manager.active c).isSome) :
    ∃ row ∈ rows ++ deleted, row.check = c := by
  obtain ⟨x, hx⟩ := Option.isSome_iff_exists.1 h
  have hx : ((restored rows).restoreDeleted (deleted.map alertFromRow)).active c = some x := hx
  rw [restoreDeleted] at hx
  split at hx
  next =>
    obtain ⟨row, hrow, hcheck, -⟩ := restored_active hx
    exact ⟨row, mem_append_left _ hrow, hcheck⟩
  next =>
    rcases seedActive_cases hx with hold | ⟨-, y, hy, hcheck, -⟩
    · obtain ⟨row, hrow, hcheck, -⟩ := restored_active hold
      exact ⟨row, mem_append_left _ hrow, hcheck⟩
    · obtain ⟨row, hrow, rfl⟩ := mem_map.1 hy
      exact ⟨row, mem_append_right _ hrow, hcheck⟩

variable {hash : Content → Nat}

theorem Tracked.step (h : s.Tracked) {op : Op} (hop : op.restoresNoEvent = true) :
    (s.step hash op).Tracked := by
  cases op with
  | event a now =>
    simp only [EventSystem.step, handleEvent]
    have htested :
        { s with runtime := (s.runtime.isDuplicate (hash a.content) now).1 }.Tracked := by
      intro c hc
      rw [(isDuplicate_frame s.runtime (hash a.content) now).1]
      exact h c hc
    split
    · rw [drop_eq]
      exact htested
    · exact htested.take a now
  | sweep now order =>
    intro c hc
    obtain ⟨hactive, hmanager⟩ := s.sweep_active now order c
    show ((s.sweep now order).1.manager.active c).isSome →
      ((s.sweep now order).1.runtime.active c).isSome
    rw [hactive, hmanager]
    split
    · simp
    · exact h c hc
  | reload snapshot addresses => exact h
  | setConfig config => exact h
  | restart rows deleted =>
    intro c hc hopen
    obtain ⟨row, hrow, rfl⟩ := restart_active hopen
    have := all_eq_true.1 hop row hrow
    simp [hc] at this

theorem Dated.step (h : s.Dated) (op : Op) : (s.step hash op).Dated := by
  cases op with
  | event a now =>
    simp only [EventSystem.step, handleEvent]
    have htested : { s with runtime := (s.runtime.isDuplicate (hash a.content) now).1 }.Dated := by
      intro c t
      rw [(isDuplicate_frame s.runtime (hash a.content) now).1]
      exact h c t
    split
    · rw [drop_eq]
      exact htested
    · exact htested.take a now
  | sweep now order =>
    intro c t ht
    have ht : (s.sweep now order).1.runtime.active c = some t := ht
    show ∃ m ∈ (s.sweep now order).1.matched, _
    rw [sweep_matched]
    rw [(s.sweep_active now order c).1] at ht
    split at ht
    · simp at ht
    · exact h c t ht
  | reload snapshot addresses => exact h
  | setConfig config => exact h
  | restart rows deleted =>
    intro c t ht
    simp [EventSystem.step, EventSystem.restart, start, Runtime.new] at ht

/-- A sweep closes a tracked alert once the time to live of all its matches has passed. -/
theorem sweep_closes (htracked : s.Tracked) (hdated : s.Dated) {c : CheckId}
    (hc : c.name.isEvent = true) {order : List CheckId}
    (horder : Enumerates order s.runtime.active)
    (hdue : ∀ m ∈ s.matched, m.check = c → m.atMs + m.ttlMs ≤ now) :
    (s.sweep now order).1.manager.active c = none := by
  rw [(s.sweep_active now order c).2]
  split
  next => rfl
  next hkept =>
    by_contra hopen
    obtain ⟨t, ht⟩ := Option.isSome_iff_exists.1 (htracked c hc (Option.isSome_iff_ne_none.2 hopen))
    obtain ⟨m, hm, hcheck, rfl⟩ := hdated c t ht
    refine hkept (mem_filter.2 ⟨horder.covers c (by simp [ht]), ?_⟩)
    simp [ht, hdue m hm hcheck]

/-- In every run that restores no event alert: each open event alert has a deadline. While its
rule is installed and the node is not in maintenance, an event that hits the clear pattern and is
no repeat closes it. A sweep closes it once the rule's time to live has passed since the last
match. -/
theorem event_alerts_tracked (hash : Content → Nat) (ops : List Op)
    (hops : ∀ op ∈ ops, op.restoresNoEvent = true) :
    let s := ops.foldl (step hash) start
    (∀ c : CheckId, c.name.isEvent = true → (s.manager.active c).isSome →
      (s.runtime.active c).isSome) ∧
    (∀ (a : Arrival) (now : UnixMs) (node : NodeId), s.nodeOf a = some node →
      s.inMaintenance node now = false →
      (s.runtime.isDuplicate (hash a.content) now).2 = false →
      ∀ rule ∈ s.rulesFor a node, rule.clearHit a.msg.haystack = true →
        (s.handleEvent hash a now).1.manager.active (rule.check node) = none) ∧
    (∀ (now : UnixMs) (order : List CheckId), Enumerates order s.runtime.active →
      ∀ c : CheckId, c.name.isEvent = true →
        (∀ m ∈ s.matched, m.check = c → m.atMs + m.ttlMs ≤ now) →
        (s.sweep now order).1.manager.active c = none) := by
  intro s
  obtain ⟨htracked, hdated⟩ : s.Tracked ∧ s.Dated :=
    (Meets.of_forall hops start).invariant (I := fun s : EventSystem => s.Tracked ∧ s.Dated)
      (fun s op hop hs => ⟨hs.1.step hop, hs.2.step op⟩)
      ⟨fun c _ h => by simp [start, fresh] at h, fun c t h => by simp [start, Runtime.new] at h⟩
  refine ⟨htracked, ?_, ?_⟩
  · intro a now node hnode hquiet hnew rule hrule hhit
    simp only [handleEvent, hnew, Bool.false_eq_true, if_false, take]
    have hnode' : EventSystem.nodeOf
        { s with runtime := (s.runtime.isDuplicate (hash a.content) now).1 } a = some node := hnode
    rw [hnode']
    refine plan_clears hrule hhit hquiet ?_
    intro hopen
    show ((s.runtime.isDuplicate (hash a.content) now).1.active _).isSome
    rw [(isDuplicate_frame s.runtime (hash a.content) now).1]
    exact htracked _ rfl hopen
  · intro now order horder c hc hdue
    exact sweep_closes htracked hdated hc horder hdue

/-! ### A restart with an open event alert -/

/-- A rule that fires on `down` and is cleared by `up`. -/
def linkRule (minCount : Nat) : CompiledRule :=
  { id := "r1", name := "link", sourceKind := none, sourceId := none, nodeId := none
    groupId := none, matcher := .substring "down", clearMatcher := some (.substring "up")
    severity := .critical, ttlSecs := 60, minCount := minCount, windowSecs := 60 }

/-- The link rule alone. -/
def linkSnapshot (minCount : Nat) : Snapshot := ⟨[linkRule minCount], pairwise_singleton _ _⟩

/-- That rule alone, and an address for each of the first nodes. -/
def installLink (minCount : Nat) : Op :=
  .reload (linkSnapshot minCount) fun ip _ => some ip

/-- A syslog message of node 1. -/
def syslog (text : String) : Arrival := ⟨⟨.syslog, 0, some 1, none, text, none⟩, none⟩

/-- The text of a message is told apart by its length. -/
def lengthHash (c : Content) : Nat := c.message.length

/-- The check of the rule on node 1. -/
def linkCheck : CheckId := (linkRule 1).check 1

/-- The link goes down. -/
def linkDown : List Op := [installLink 1, .event (syslog "link down") 0]

theorem event_alerts_tracked_link_down :
    let s := linkDown.foldl (step lengthHash) start
    (s.manager.active linkCheck).isSome ∧ (s.runtime.active linkCheck).isSome ∧
      (s.handleEvent lengthHash (syslog "link up") 1000).1.manager.active linkCheck = none := by
  have hopen : ((linkDown.foldl (step lengthHash) start).manager.active linkCheck).isSome := by
    decide +kernel
  obtain ⟨htracked, hclear, -⟩ := event_alerts_tracked lengthHash linkDown (by decide)
  refine ⟨hopen, htracked linkCheck rfl hopen, ?_⟩
  have hrules : (linkDown.foldl (step lengthHash) start).snapshot.rules = [linkRule 1] := rfl
  exact hclear (syslog "link up") 1000 1 rfl (by decide +kernel) (by decide +kernel) (linkRule 1)
    (List.mem_filter.2 ⟨by simp [hrules], rfl⟩) (by decide +kernel)

/-- The row of the alert in the history. -/
def linkRow : AlertHistoryRow :=
  { subject := .node 1, check := linkCheck, severity := .critical, state := .critical
    atUnixMs := 0, metric := some (.metric (.event "link")), observedValue := none
    thresholdValue := none, direction := none, ifindex := none, row := none, rowName := none }

/-- The link goes down, core is restarted, and its rules are read. -/
def downThenRestarted : List Op := linkDown ++ [.restart [linkRow] [], installLink 1]

/-- After the restart the alert is open and has no deadline: the clear pattern does not close it,
and a sweep a day later does not. -/
theorem restored_event_alert_stuck :
    let s := downThenRestarted.foldl (step lengthHash) start
    (s.manager.active linkCheck).isSome ∧ s.runtime.active linkCheck = none ∧
      ((s.handleEvent lengthHash (syslog "link up") 1000).1.manager.active linkCheck).isSome ∧
      ((s.sweep 86400000 [linkCheck]).1.manager.active linkCheck).isSome := by
  decide +kernel

end EventSystem

end Yagra.Events
