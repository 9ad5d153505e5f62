import Yagra.Proofs.EventAlerts

/-!
# `Yagra.Proofs.Repeats`: what dropping repeated messages changes

The repeat test comes before the rules and looks only at the text of a message. So it can drop a
message that would have changed something: a clear whose text was seen before the alert was
raised again, a match that would have been counted, or one that would have moved a deadline.
`dropped_repeats_matter` has a run for each of the first two and one for a match after a clear.

`harmless` is the condition under which a dropped message makes no difference. Each rule it clears
has no open alert, and each rule it fires has one and does not count its matches. A sweep closes
no alert that a dropped match would have kept open. `repeats_change_nothing` compares the engine
in such runs with the engine without the test. By the relation `Mirrors` the counters are the
same, and a deadline differs only where a dropped match would have set it (`Behind`). What the
engine without the test does is then what the source promises: `take_clears`, and `Counted` for
the matches within the window.
-/

set_option autoImplicit false

namespace Yagra.Events

open Yagra.Lib Function Yagra.Events.Runtime List EventSystem
open CompiledRule

/-! ### What one rule does to the matcher -/

namespace Runtime

/-- What a rule that applies does outside maintenance. -/
def tryRule (haystack : String) (node : NodeId) (now : UnixMs) (rt : Runtime)
    (rule : CompiledRule) : Runtime :=
  if rule.clearHit haystack then rt.disarm (rule.check node)
  else if rule.fireHit haystack && decide (rule.severity ≠ .info) then
    let gate := rt.gatePasses rule node now
    if gate.2 then gate.1.arm (rule.check node) (now + rule.ttlMs) else gate.1
  else rt

theorem disarm_of_none {rt : Runtime} {c : CheckId} (h : rt.active c = none) :
    rt.disarm c = rt := by
  rw [disarm, ← h, update_eq_self]

end Runtime

theorem planRule_runtime (msg : EventMsg) (node : NodeId) (now : UnixMs) (p : Planned)
    (rule : CompiledRule) :
    (planRule msg node now false p rule).runtime
      = p.runtime.tryRule msg.haystack node now rule := by
  simp only [planRule, tryRule]
  cases hclear : rule.clearHit msg.haystack with
  | true =>
    simp only [Bool.not_true, Bool.and_false, Bool.false_eq_true, if_false, if_true,
      Planned.bump_runtime, Planned.clear]
    split
    next hnone => rw [disarm_of_none hnone]
    next => rfl
  | false =>
    cases hfire : rule.fireHit msg.haystack with
    | false => simp
    | true =>
      simp only [Bool.not_true, Bool.not_false, Bool.and_true, Bool.false_eq_true, if_false,
        Bool.true_and, decide_eq_true_eq]
      split
      next hinfo => simp [hinfo]
      next hinfo =>
        split
        next =>
          simp only [Planned.fire]
          split <;> simp
        next => simp

namespace EventSystem

theorem plan_runtime {s : EventSystem} {a : Arrival} {node : NodeId} {now : UnixMs}
    (hquiet : s.inMaintenance node now = false) :
    (s.plan a node now).runtime
      = (s.rulesFor a node).foldl (tryRule a.msg.haystack node now) s.runtime := by
  rw [plan, hquiet]
  have hloop : ∀ (rules : List CompiledRule) (p : Planned),
      (rules.foldl (planRule a.msg node now false) p).runtime
        = rules.foldl (tryRule a.msg.haystack node now) p.runtime := by
    intro rules
    induction rules with
    | nil => exact fun _ => rfl
    | cons rule rest ih =>
      intro p
      rw [foldl_cons, foldl_cons, ih, planRule_runtime]
  exact hloop _ _

end EventSystem

/-! ### What one rule counts -/

/-- On sorted times, dropping the old ones from the front keeps the others. -/
theorem dropWhile_lt_eq_filter {l : List UnixMs} (h : l.Pairwise (· ≤ ·)) (cutoff : UnixMs) :
    l.dropWhile (fun t => decide (t < cutoff)) = l.filter fun t => decide (cutoff ≤ t) := by
  induction l with
  | nil => rfl
  | cons t rest ih =>
    obtain ⟨hle, hrest⟩ := pairwise_cons.1 h
    by_cases ht : t < cutoff
    · simp [ht, Int.not_le.2 ht, ih hrest]
    · have hall : ∀ u ∈ rest, cutoff ≤ u := fun u hu => (Int.not_lt.1 ht).trans (hle u hu)
      simp [ht, Int.not_lt.1 ht, filter_eq_self.2 fun u hu => decide_eq_true (hall u hu)]

namespace Runtime

variable {rt : Runtime} {haystack : String} {node : NodeId} {now : UnixMs} {rule r : CompiledRule}

/-- The matches that count when another one comes. -/
def recent (rt : Runtime) (rule : CompiledRule) (node : NodeId) (now : UnixMs) : List UnixMs :=
  (rt.counters rule.id node).dropWhile (fun t => decide (t < now - rule.windowMs)) ++ [now]

/-- A counter with one more match. -/
def count (rt : Runtime) (rule : CompiledRule) (node : NodeId) (now : UnixMs) : Runtime :=
  let counters := update (rt.counters rule.id) node (rt.recent rule node now)
  { rt with counters := update rt.counters rule.id counters }

section

variable (rt : Runtime)

/-- A rule counts only its own matches, on the node of the message. -/
theorem tryRule_counters_other {n : NodeId} (h : r.id ≠ rule.id ∨ n ≠ node) :
    (rt.tryRule haystack node now r).counters rule.id n = rt.counters rule.id n := by
  have hgate : (rt.gatePasses r node now).1.counters rule.id n = rt.counters rule.id n := by
    rw [gatePasses]
    split
    · rfl
    · rcases h with hid | hn
      · simp [update_of_ne (Ne.symm hid)]
      · by_cases hid : rule.id = r.id
        · simp [hid, hn]
        · simp [update_of_ne hid]
  simp only [tryRule]
  split
  · rfl
  · split
    · split <;> exact hgate
    · rfl

/-- A rule that does not fire counts nothing. -/
theorem tryRule_counters_of_not_fires (h : r.fires haystack = false) :
    (rt.tryRule haystack node now r).counters = rt.counters := by
  simp only [tryRule]
  split
  · rfl
  next hclear =>
    have hfire : r.fireHit haystack = false := by simpa [fires, hclear] using h
    simp [hfire]

theorem tryRule_active_other (h : r.id ≠ rule.id) :
    (rt.tryRule haystack node now r).active (rule.check node) = rt.active (rule.check node) := by
  have hne : rule.check node ≠ r.check node := fun heq => h (check_inj heq).symm
  simp only [tryRule]
  split
  · simp [disarm, hne]
  · split
    · split <;> simp [arm, hne]
    · rfl

/-- A rule that fires counts the match, and opens its alert when there are enough. -/
theorem tryRule_of_fires (h : rule.fires haystack = true) (hinfo : rule.severity ≠ .info) :
    (1 < rule.minCount →
      (rt.tryRule haystack node now rule).counters rule.id node = rt.recent rule node now) ∧
    (rule.minCount ≤ 1 ∨ rule.minCount ≤ (rt.recent rule node now).length →
      ((rt.tryRule haystack node now rule).active (rule.check node)).isSome) := by
  rw [fires, Bool.and_eq_true, Bool.not_eq_true'] at h
  simp only [tryRule, h.1, h.2, hinfo, ne_eq, not_false_eq_true, decide_true, Bool.and_self,
    Bool.false_eq_true, if_false, if_true]
  by_cases hcount : rule.minCount ≤ 1
  · refine ⟨fun hlt => absurd hlt (Nat.not_lt.2 hcount), fun _ => ?_⟩
    simp [gatePasses, hcount, arm]
  · have hgate : rt.gatePasses rule node now
        = (rt.count rule node now, decide (rule.minCount ≤ (rt.recent rule node now).length)) := by
      rw [gatePasses, if_neg hcount]
      rfl
    have hcounted : (rt.count rule node now).counters rule.id node = rt.recent rule node now := by
      simp [count]
    rw [hgate]
    constructor
    · intro _
      split <;> exact hcounted
    · intro hmany
      simp [arm, hmany.resolve_left hcount]

/-- Among the rules of an event, a rule that fires does so once. -/
theorem tryAll_of_fires {rules : List CompiledRule} (hdistinct : (rules.map (·.id)).Nodup)
    (hrule : rule ∈ rules) (h : rule.fires haystack = true) (hinfo : rule.severity ≠ .info) :
    (1 < rule.minCount →
      (rules.foldl (tryRule haystack node now) rt).counters rule.id node
        = rt.recent rule node now) ∧
    (rule.minCount ≤ 1 ∨ rule.minCount ≤ (rt.recent rule node now).length →
      ((rules.foldl (tryRule haystack node now) rt).active (rule.check node)).isSome) := by
  have honly := filter_key_eq_singleton hdistinct hrule
  refine foldl_of_filter (p := fun r : CompiledRule => decide (r.id = rule.id))
    (J := fun rt' : Runtime => rt'.counters rule.id node = rt.counters rule.id node)
    (K := fun rt' : Runtime =>
      (1 < rule.minCount → rt'.counters rule.id node = rt.recent rule node now) ∧
      (rule.minCount ≤ 1 ∨ rule.minCount ≤ (rt.recent rule node now).length →
        (rt'.active (rule.check node)).isSome)) (by rw [honly]; simp) ?_ ?_ ?_ rfl
  · intro rt' r hr hsame
    rw [tryRule_counters_other rt' (.inl (of_decide_eq_false hr)), hsame]
  · intro rt' r hr hdone
    rw [tryRule_counters_other rt' (.inl (of_decide_eq_false hr)),
      tryRule_active_other rt' (of_decide_eq_false hr)]
    exact hdone
  · intro rt' hsame
    rw [honly]
    have hrecent : rt.recent rule node now = rt'.recent rule node now := by
      rw [recent, recent, hsame]
    rw [hrecent]
    exact tryRule_of_fires rt' h hinfo

/-- A rule that does not fire on the message, or on another node, counts nothing. -/
theorem tryAll_counters_of_idle {rules : List CompiledRule} {n : NodeId}
    (h : n = node → ∀ r ∈ rules, r.id = rule.id → r.fires haystack = false) :
    (rules.foldl (tryRule haystack node now) rt).counters rule.id n = rt.counters rule.id n := by
  refine foldlRecOn
    (motive := fun rt' : Runtime => rt'.counters rule.id n = rt.counters rule.id n) rules _ rfl ?_
  intro rt' hrt r hr
  by_cases hother : r.id ≠ rule.id ∨ n ≠ node
  · rw [tryRule_counters_other rt' hother, hrt]
  · rw [not_or, not_ne_iff, not_ne_iff] at hother
    rw [tryRule_counters_of_not_fires rt' (h hother.2 r hr hother.1), hrt]

end

end Runtime

/-! ### Deadlines that lack a dropped match -/

/-- The deadlines of a check in the engine and in the one without the repeat test: none, the
same, or a later one that a dropped match would have set. -/
inductive Behind (dropped : List Match) (c : CheckId) : Option UnixMs → Option UnixMs → Prop
  | same (t : Option UnixMs) : Behind dropped c t t
  | later {t : UnixMs} {m : Match} (hm : m ∈ dropped) (hcheck : m.check = c)
      (hle : t ≤ m.atMs + m.ttlMs) : Behind dropped c (some t) (some (m.atMs + m.ttlMs))

variable {dropped : List Match} {t t' : Option UnixMs}

theorem Behind.isSome_eq {c : CheckId} (h : Behind dropped c t t') : t'.isSome = t.isSome := by
  cases h <;> rfl

theorem Behind.mono {c : CheckId} (h : Behind dropped c t t') (more : List Match) :
    Behind (dropped ++ more) c t t' := by
  cases h with
  | same => exact .same _
  | later hm hcheck hle => exact .later (mem_append_left _ hm) hcheck hle

/-- The same counters, and the same deadlines up to dropped matches. -/
structure Alike (dropped : List Match) (d p : Runtime) : Prop where
  counters : p.counters = d.counters
  active : ∀ c, Behind dropped c (d.active c) (p.active c)

namespace Alike

variable {dropped : List Match} {d p : Runtime} {haystack : String} {node : NodeId} {now : UnixMs}
  {rule : CompiledRule}

theorem mono (h : Alike dropped d p) (more : List Match) : Alike (dropped ++ more) d p where
  counters := h.counters
  active := fun c => (h.active c).mono more

/-- A deadline set or removed on both sides. -/
theorem update {d' p' : Runtime} (h : Alike dropped d p) (c : CheckId) (t : Option UnixMs)
    (hd : d' = { d with active := update d.active c t })
    (hp : p' = { p with active := update p.active c t }) : Alike dropped d' p' where
  counters := by rw [hd, hp]; exact h.counters
  active := by
    intro c'
    by_cases hc : c' = c
    · simpa [hd, hp, hc] using Behind.same t
    · simpa [hd, hp, hc] using h.active c'

theorem gatePasses (h : Alike dropped d p) (rule : CompiledRule) (node : NodeId) (now : UnixMs) :
    Alike dropped (d.gatePasses rule node now).1 (p.gatePasses rule node now).1 ∧
      (p.gatePasses rule node now).2 = (d.gatePasses rule node now).2 := by
  simp only [Runtime.gatePasses, h.counters]
  split
  · exact ⟨h, rfl⟩
  · exact ⟨⟨rfl, h.active⟩, rfl⟩

/-- A rule tried on both sides. -/
theorem tryRule (h : Alike dropped d p) (haystack : String) (node : NodeId) (now : UnixMs)
    (rule : CompiledRule) :
    Alike dropped (d.tryRule haystack node now rule) (p.tryRule haystack node now rule) := by
  obtain ⟨hgate, hpasses⟩ := h.gatePasses rule node now
  simp only [Runtime.tryRule, hpasses]
  split
  · exact h.update _ none rfl rfl
  · split
    · split
      · exact hgate.update _ (some _) rfl rfl
      · exact hgate
    · exact h

theorem tryAll (h : Alike dropped d p) (haystack : String) (node : NodeId) (now : UnixMs)
    (rules : List CompiledRule) :
    Alike dropped (rules.foldl (Runtime.tryRule haystack node now) d)
      (rules.foldl (Runtime.tryRule haystack node now) p) := by
  induction rules generalizing d p with
  | nil => exact h
  | cons rule rest ih => exact ih (h.tryRule haystack node now rule)

end Alike

/-! ### Messages whose loss changes nothing -/

/-- What a rule would do with the message is already done: the alert it clears is not open, or
the alert it fires is open and its matches are not counted. -/
def alreadyDone (rt : Runtime) (haystack : String) (node : NodeId) (rule : CompiledRule) : Bool :=
  if rule.clearHit haystack then (rt.active (rule.check node)).isNone
  else if rule.fireHit haystack && decide (rule.severity ≠ .info) then
    decide (rule.minCount ≤ 1) && (rt.active (rule.check node)).isSome
  else true

/-- A rule tried only on the side without the test. -/
theorem Alike.tryRule_right {d p : Runtime} (h : Alike dropped d p) {haystack : String}
    {node : NodeId} {now : UnixMs} {rule : CompiledRule}
    (hdone : alreadyDone d haystack node rule = true)
    (hmatch : rule.fireHit haystack = true → ⟨rule.check node, now, rule.ttlMs⟩ ∈ dropped)
    (hpast : ∀ t, d.active (rule.check node) = some t → t ≤ now + rule.ttlMs) :
    Alike dropped d (p.tryRule haystack node now rule) := by
  simp only [alreadyDone] at hdone
  simp only [Runtime.tryRule]
  split at hdone
  next hclear =>
    have hnone : p.active (rule.check node) = none := by
      have hsome := (h.active (rule.check node)).isSome_eq
      rw [Option.isNone_iff_eq_none.1 hdone] at hsome
      simpa using hsome
    rw [if_pos hclear, disarm_of_none hnone]
    exact h
  next hclear =>
    rw [if_neg hclear]
    split at hdone
    next hfire =>
      rw [Bool.and_eq_true, decide_eq_true_eq, Option.isSome_iff_exists] at hdone
      obtain ⟨hcount, t, ht⟩ := hdone
      have hgate : p.gatePasses rule node now = (p, true) := by simp [Runtime.gatePasses, hcount]
      rw [if_pos hfire, hgate]
      refine ⟨h.counters, ?_⟩
      intro c
      by_cases hc : c = rule.check node
      · subst hc
        simp only [ht, if_true, arm, update_self]
        exact .later (hmatch (Bool.and_eq_true_iff.1 hfire).1) rfl (hpast t ht)
      · simpa [arm, hc] using h.active c
    next hfire =>
      rw [if_neg hfire]
      exact h

namespace EventSystem

variable {s s' s₀ : EventSystem} {a : Arrival} {now : UnixMs}

/-! ### What does not change -/

/-- The same rules, addresses and configuration. -/
structure SameSetup (s s' : EventSystem) : Prop where
  snapshot : s.snapshot = s'.snapshot
  addresses : s.addresses = s'.addresses
  config : s.manager.config = s'.manager.config

section

variable (h : SameSetup s s')

include h

theorem SameSetup.symm : SameSetup s' s :=
  ⟨h.snapshot.symm, h.addresses.symm, h.config.symm⟩

theorem SameSetup.trans (h' : SameSetup s' s₀) : SameSetup s s₀ :=
  ⟨h.snapshot.trans h'.snapshot, h.addresses.trans h'.addresses, h.config.trans h'.config⟩

theorem SameSetup.nodeOf (a : Arrival) : s.nodeOf a = s'.nodeOf a := by
  rw [EventSystem.nodeOf, EventSystem.nodeOf, h.addresses]

theorem SameSetup.rulesFor (a : Arrival) (node : NodeId) :
    s.rulesFor a node = s'.rulesFor a node := by
  rw [EventSystem.rulesFor, EventSystem.rulesFor, h.snapshot, h.config]

theorem SameSetup.inMaintenance (node : NodeId) (now : UnixMs) :
    s.inMaintenance node now = s'.inMaintenance node now := by
  rw [EventSystem.inMaintenance, EventSystem.inMaintenance, h.config]

end

variable (s)

theorem take_setup (a : Arrival) (now : UnixMs) : SameSetup (s.take a now).1 s := by
  rw [take]
  split
  next => exact ⟨rfl, rfl, rfl⟩
  next node _ =>
    refine ⟨rfl, rfl, ?_⟩
    exact plan_invariant (I := fun p => p.manager.config = s.manager.config) a node now
      (fun _ _ _ _ heffect hp => heffect.config.trans hp) fun _ _ _ => rfl

theorem sweep_setup (now : UnixMs) (order : List CheckId) :
    SameSetup (s.sweep now order).1 s where
  snapshot := emitAll_frame expire (π := snapshot) (fun _ _ _ => rfl) s
  addresses := emitAll_frame expire (π := addresses) (fun _ _ _ => rfl) s
  config := by
    refine emitAll_frame expire (π := fun s : EventSystem => s.manager.config) ?_ s
    intro s c _
    show (s.manager.closeActive c).1.config = s.manager.config
    rw [AlertManager.closeActive_frame]

theorem sweep_counters (now : UnixMs) (order : List CheckId) (rule : RuleId) (node : NodeId) :
    (s.sweep now order).1.runtime.counters rule node =
      if (s.runtime.counters rule node).getLast?.any fun t => decide (now - counterMaxAgeMs ≤ t)
      then s.runtime.counters rule node else [] := by
  have hframe : (emitAll expire s (s.expired now order)).1.runtime.counters = s.runtime.counters :=
    emitAll_frame expire (π := fun s : EventSystem => s.runtime.counters) (fun _ _ _ => rfl) s
  simp only [sweep, hframe]

/-- The alerts that are open are those with a deadline. -/
def Exact : Prop :=
  ∀ c, (s.manager.active c).isSome = (s.runtime.active c).isSome

variable {s}

theorem Exact.take (h : s.Exact) (a : Arrival) (now : UnixMs) : (s.take a now).1.Exact := by
  rw [EventSystem.take]
  split
  next => exact h
  next node _ =>
    refine plan_invariant
      (I := fun p => ∀ c, (p.manager.active c).isSome = (p.runtime.active c).isSome) a node now ?_
      fun _ _ _ => h
    intro p rule _ p' heffect hp c
    by_cases hc : c = rule.check node
    · subst hc
      cases heffect with
      | idle hactive hmanager => rw [hactive, hmanager, hp]
      | cleared _ hactive hmanager _ => simp [hactive, hmanager]
      | fired _ hactive hmanager hopen hraised _ =>
        rw [hactive, hmanager, update_self, update_self]
        cases hwas : p.runtime.active (rule.check node) with
        | none => simp [hraised hwas]
        | some t => rw [hopen (by simp [hwas]), hp, hwas]; rfl
    · obtain ⟨hactive, hmanager⟩ := heffect.other hc
      rw [hactive, hmanager, hp]

theorem Exact.sweep (h : s.Exact) (now : UnixMs) (order : List CheckId) :
    (s.sweep now order).1.Exact := by
  intro c
  obtain ⟨hactive, hmanager⟩ := s.sweep_active now order c
  rw [hactive, hmanager]
  split
  · rfl
  · exact h c

/-- The state after the repeat test. -/
theorem Exact.tested (h : s.Exact) (key : Nat) (now : UnixMs) :
    { s with runtime := (s.runtime.isDuplicate key now).1 }.Exact := by
  intro c
  rw [(isDuplicate_frame s.runtime key now).1]
  exact h c

/-! ### Both engines side by side -/

/-- The times of the messages. -/
def eventTimes (past : List Traffic) : List UnixMs :=
  past.filterMap fun
    | .event _ now => some now
    | .sweep _ _ => none

theorem eventTimes_append (past : List Traffic) (op : Traffic) :
    eventTimes (past ++ [op]) = eventTimes past ++ eventTimes [op] :=
  filterMap_append

theorem mem_eventTimes_event (a : Arrival) (now : UnixMs) (past : List Traffic) :
    now ∈ eventTimes (past ++ [.event a now]) := by
  simp [eventTimes]

variable {rule : CompiledRule} {past : List Traffic} {node : NodeId}

/-- A message in order comes at or after the earlier ones. -/
theorem eventTimes_le (h : (eventTimes (past ++ [.event a now])).Pairwise (· ≤ ·)) :
    ∀ t ∈ eventTimes past, t ≤ now := by
  rw [eventTimes_append, pairwise_append] at h
  exact fun t ht => h.2.2 t ht now (by simp [eventTimes])

theorem eventTimes_pairwise {op : Traffic} (h : (eventTimes (past ++ [op])).Pairwise (· ≤ ·)) :
    (eventTimes past).Pairwise (· ≤ ·) := by
  rw [eventTimes_append, pairwise_append] at h
  exact h.1

/-- A dropped message is one whose rules have nothing left to do, and a sweep closes no alert
that a dropped match would have kept open. -/
def harmless (hash : Content → Nat) (s : EventSystem) : Traffic → Bool
  | .event a now =>
    !(s.runtime.isDuplicate (hash a.content) now).2 ||
      (s.nodeOf a).all fun node =>
        (s.rulesFor a node).all (alreadyDone s.runtime a.msg.haystack node)
  | .sweep now order =>
    (s.expired now order).all fun c =>
      s.dropped.all fun m => decide (m.check = c → m.atMs + m.ttlMs ≤ now)

/-- The engine beside the one without the test, after the same traffic. `setup` and `quiet` say
that the rules are still those of `s₀` and that nothing is in maintenance. A deadline is at most
the rule's time to live ahead of the last message. -/
structure Mirrors (s₀ : EventSystem) (past : List Traffic) (s s' : EventSystem) : Prop where
  setup : SameSetup s s₀
  setup' : SameSetup s' s₀
  exact : s.Exact
  exact' : s'.Exact
  alike : Alike s.dropped s.runtime s'.runtime
  ahead : ∀ rule ∈ s₀.snapshot.rules, ∀ node t, s.runtime.active (rule.check node) = some t →
    ∀ now, (∀ u ∈ eventTimes past, u ≤ now) → t ≤ now + rule.ttlMs

/-- Rules with the same check are the same rule. -/
theorem rule_of_check {r : CompiledRule} (hrule : rule ∈ s.snapshot.rules)
    (hr : r ∈ s.snapshot.rules) {n : NodeId} (h : rule.check node = r.check n) : rule = r := by
  have hid : rule.id = r.id := by
    simp [check, checkId, subjectCheckId] at h
    exact h.2
  exact inj_on_of_nodup_map s.snapshot.distinct hrule hr hid

theorem mem_rulesFor (h : rule ∈ s.rulesFor a node) : rule ∈ s.snapshot.rules :=
  (mem_filter.1 h).1

section

variable (h : Mirrors s₀ past s s')

include h

/-- Both engines take a message. -/
theorem Mirrors.take (hquiet : ∀ node now, s₀.inMaintenance node now = false) :
    Mirrors s₀ (past ++ [.event a now]) (s.take a now).1 (s'.take a now).1 := by
  have hsetup := s.take_setup a now
  have hsetup' := s'.take_setup a now
  refine ⟨hsetup.trans h.setup, hsetup'.trans h.setup', h.exact.take a now, h.exact'.take a now,
    ?_, ?_⟩
  · have hnode := (h.setup.trans h.setup'.symm).nodeOf a
    simp only [EventSystem.take, ← hnode]
    split
    next => exact h.alike
    next node _ =>
      have hrules := (h.setup.trans h.setup'.symm).rulesFor a node
      have hmaintenance := (h.setup.inMaintenance node now).trans (hquiet node now)
      have hmaintenance' := (h.setup'.inMaintenance node now).trans (hquiet node now)
      show Alike s.dropped (s.plan a node now).runtime (s'.plan a node now).runtime
      rw [plan_runtime hmaintenance, plan_runtime hmaintenance', ← hrules]
      exact h.alike.tryAll _ _ _ _
  · intro rule hrule n t
    simp only [EventSystem.take]
    split
    next =>
      intro ht u hu
      exact h.ahead rule hrule n t ht u fun v hv => hu v (by simp [eventTimes_append, hv])
    next node _ =>
      refine plan_invariant (I := fun p => p.runtime.active (rule.check n) = some t →
        ∀ u, (∀ v ∈ eventTimes (past ++ [.event a now]), v ≤ u) → t ≤ u + rule.ttlMs) a node now
        ?_ ?_
      · intro p r hr p' heffect hp ht u hu
        by_cases hc : rule.check n = r.check node
        · have hr := h.setup.snapshot ▸ mem_rulesFor hr
          obtain rfl := rule_of_check hrule hr hc
          cases heffect with
          | idle hactive _ => exact hp (hactive ▸ ht) u hu
          | cleared _ hactive _ _ => simp [hactive, hc] at ht
          | fired _ hactive _ _ _ _ =>
            rw [hactive, hc, update_self] at ht
            cases ht
            exact Int.add_le_add_right (hu now (mem_eventTimes_event a now past)) _
        · rw [(heffect.other hc).1] at ht
          exact hp ht u hu
      · intro _ _ _ ht u hu
        exact h.ahead rule hrule n t ht u fun v hv => hu v (by simp [eventTimes_append, hv])

/-- Only the engine without the test takes a message, and what it would do is already done. -/
theorem Mirrors.drop (hquiet : ∀ node now, s₀.inMaintenance node now = false)
    (hclock : (eventTimes (past ++ [.event a now])).Pairwise (· ≤ ·))
    (hdone : ((s.nodeOf a).all fun node =>
    (s.rulesFor a node).all (alreadyDone s.runtime a.msg.haystack node)) = true) :
    Mirrors s₀ (past ++ [.event a now]) (s.drop a now) (s'.take a now).1 := by
  have hahead : ∀ rule ∈ s₀.snapshot.rules, ∀ node t,
      s.runtime.active (rule.check node) = some t →
      ∀ u, (∀ v ∈ eventTimes (past ++ [.event a now]), v ≤ u) → t ≤ u + rule.ttlMs := by
    intro rule hrule node t ht u hu
    exact h.ahead rule hrule node t ht u fun v hv => hu v (by simp [eventTimes_append, hv])
  rw [drop_eq]
  refine ⟨⟨h.setup.snapshot, h.setup.addresses, h.setup.config⟩,
    (s'.take_setup a now).trans h.setup', h.exact, h.exact'.take a now, ?_, hahead⟩
  have hnode := (h.setup.trans h.setup'.symm).nodeOf a
  simp only [EventSystem.take, EventSystem.drop, ← hnode]
  split
  next => exact h.alike
  next node hsome =>
    have hrules := (h.setup.trans h.setup'.symm).rulesFor a node
    have hmaintenance' := (h.setup'.inMaintenance node now).trans (hquiet node now)
    rw [hsome, Option.all_some, all_eq_true] at hdone
    show Alike (s.dropped ++ s.matchesOf a node now) s.runtime (s'.plan a node now).runtime
    rw [plan_runtime hmaintenance', ← hrules]
    refine foldlRecOn (motive := fun p => Alike _ s.runtime p) _ _ (h.alike.mono _) ?_
    intro p hp rule hrule
    refine hp.tryRule_right (hdone rule hrule) ?_ ?_
    · intro hhit
      refine mem_append_right _ (mem_map.2 ⟨rule, ?_, rfl⟩)
      exact mem_filter.2 ⟨hrule, hhit⟩
    · intro t ht
      exact h.ahead rule (h.setup.snapshot ▸ mem_rulesFor hrule) node t ht now
        (eventTimes_le hclock)

/-- Both engines sweep, and the same alerts have expired. -/
theorem Mirrors.sweep {order : List CheckId}
    (hkept : ∀ c ∈ s.expired now order, ∀ m ∈ s.dropped, m.check = c →
    m.atMs + m.ttlMs ≤ now) :
    Mirrors s₀ (past ++ [.sweep now order]) (s.sweep now order).1 (s'.sweep now order).1 := by
  have hexpired : ∀ c, c ∈ s'.expired now order ↔ c ∈ s.expired now order := by
    intro c
    have hdropped := hkept c
    simp only [expired, mem_filter] at hdropped ⊢
    refine and_congr_right fun hc => ?_
    have hbehind := h.alike.active c
    generalize s.runtime.active c = t, s'.runtime.active c = t' at hbehind hdropped
    cases hbehind with
    | same => exact Iff.rfl
    | @later t m hm hcheck hle =>
      simp only [Option.any_some, decide_eq_true_eq] at hdropped ⊢
      exact ⟨fun hdue => hle.trans hdue, fun hdue => hdropped ⟨hc, hdue⟩ m hm hcheck⟩
  have hdropped : (s.sweep now order).1.dropped = s.dropped :=
    emitAll_frame expire (π := dropped) (fun _ _ _ => rfl) s
  refine ⟨(s.sweep_setup now order).trans h.setup, (s'.sweep_setup now order).trans h.setup',
    h.exact.sweep now order, h.exact'.sweep now order, ⟨?_, ?_⟩, ?_⟩
  · funext rule node
    rw [sweep_counters, sweep_counters, h.alike.counters]
  · intro c
    rw [hdropped, (s.sweep_active now order c).1, (s'.sweep_active now order c).1]
    simp only [hexpired]
    split
    · exact .same _
    · exact h.alike.active c
  · intro rule hrule node t ht u hu
    rw [(s.sweep_active now order _).1] at ht
    split at ht
    · simp at ht
    · exact h.ahead rule hrule node t ht u fun v hv => hu v (by simp [eventTimes_append, hv])

/-- The state after the repeat test. -/
theorem Mirrors.tested (key : Nat) (now : UnixMs) :
    Mirrors s₀ past { s with runtime := (s.runtime.isDuplicate key now).1 } s' := by
  obtain ⟨hactive, hcounters⟩ := isDuplicate_frame s.runtime key now
  refine ⟨⟨h.setup.snapshot, h.setup.addresses, h.setup.config⟩, h.setup', h.exact.tested key now,
    h.exact', ⟨?_, ?_⟩, ?_⟩
  · rw [hcounters]
    exact h.alike.counters
  · intro c
    rw [hactive]
    exact h.alike.active c
  · intro rule hrule node t
    rw [hactive]
    exact h.ahead rule hrule node t

end

/-- One step of both engines. -/
theorem Mirrors.step {hash : Content → Nat} (h : Mirrors s₀ past s s')
    (hquiet : ∀ node now, s₀.inMaintenance node now = false) {op : Traffic}
    (hclock : (eventTimes (past ++ [op])).Pairwise (· ≤ ·)) (hop : s.harmless hash op = true) :
    Mirrors s₀ (past ++ [op]) (s.serve hash op) (s'.serveEvery op) := by
  cases op with
  | sweep now order =>
    simp only [harmless, all_eq_true, decide_eq_true_eq] at hop
    exact h.sweep hop
  | event a now =>
    have htested := h.tested (hash a.content) now
    simp only [serve, serveEvery, handleEvent]
    split
    next hdup =>
      simp only [harmless, hdup, Bool.not_true, Bool.false_or] at hop
      refine htested.drop hquiet hclock ?_
      -- The rules look at the deadlines only, and the test does not touch them.
      have hsame : alreadyDone (s.runtime.isDuplicate (hash a.content) now).1
          = alreadyDone s.runtime := by
        funext haystack node rule
        rw [alreadyDone, alreadyDone, (isDuplicate_frame s.runtime _ now).1]
      show ((s.nodeOf a).all fun node => (s.rulesFor a node).all
        (alreadyDone (s.runtime.isDuplicate (hash a.content) now).1 a.msg.haystack node)) = true
      rw [hsame]
      exact hop
    next => exact htested.take hquiet

/-! ### The engine without the test -/

/-- A message that hits the clear pattern of a rule closes the rule's alert. -/
theorem Exact.take_clears (h : s.Exact) (hnode : s.nodeOf a = some node)
    (hquiet : s.inMaintenance node now = false) (hrule : rule ∈ s.rulesFor a node)
    (hhit : rule.clearHit a.msg.haystack = true) :
    (s.take a now).1.manager.active (rule.check node) = none := by
  simp only [EventSystem.take, hnode]
  exact plan_clears hrule hhit hquiet fun hopen => h _ ▸ hopen

/-- Whether a message is a match of a rule on a node. -/
def isMatch (s : EventSystem) (rule : CompiledRule) (node : NodeId) (a : Arrival) : Bool :=
  let chain := (s.manager.config.metaOf node).map (·.folderChain)
  decide (s.nodeOf a = some node) && rule.applies a.msg.kind a.sourceId node chain &&
    rule.fires a.msg.haystack

/-- When the matches of a rule on a node were received. -/
def received (s : EventSystem) (rule : CompiledRule) (node : NodeId) (past : List Traffic) :
    List UnixMs :=
  past.filterMap fun
    | .event a now => if s.isMatch rule node a then some now else none
    | .sweep _ _ => none

/-- The times within the window of a rule. -/
def within (rule : CompiledRule) (now : UnixMs) (times : List UnixMs) : List UnixMs :=
  times.filter fun t => decide (now - rule.windowMs ≤ t)

/-- A rule that fires on a match finds it among the rules that apply. -/
theorem isMatch_iff (hrule : rule ∈ s.snapshot.rules) :
    s.isMatch rule node a = true ↔
      s.nodeOf a = some node ∧ rule ∈ s.rulesFor a node ∧ rule.fires a.msg.haystack = true := by
  simp [isMatch, rulesFor, hrule, and_assoc]

/-- The counters hold the matches that can still count: at every later moment, those within the
window are the received ones within the window. -/
structure Counted (s₀ : EventSystem) (past : List Traffic) (s : EventSystem) : Prop where
  setup : SameSetup s s₀
  sorted : ∀ rule ∈ s₀.snapshot.rules, 1 < rule.minCount → rule.severity ≠ .info →
    ∀ node, (s.runtime.counters rule.id node).Pairwise (· ≤ ·)
  earlier : ∀ rule ∈ s₀.snapshot.rules, 1 < rule.minCount → rule.severity ≠ .info →
    ∀ node, ∀ t ∈ s.runtime.counters rule.id node, t ∈ eventTimes past
  window : ∀ rule ∈ s₀.snapshot.rules, 1 < rule.minCount → rule.severity ≠ .info →
    ∀ node now, (∀ op ∈ past, op.time ≤ now) →
      within rule now (s.runtime.counters rule.id node)
        = within rule now (s₀.received rule node past)

theorem received_append (s : EventSystem) (rule : CompiledRule) (node : NodeId)
    (past : List Traffic) (op : Traffic) :
    s.received rule node (past ++ [op]) = s.received rule node past ++ s.received rule node [op] :=
  filterMap_append

theorem within_append (rule : CompiledRule) (now : UnixMs) (l l' : List UnixMs) :
    within rule now (l ++ l') = within rule now l ++ within rule now l' :=
  filter_append ..

/-- A later window holds less. -/
theorem within_within {later : UnixMs} (h : now ≤ later) (l : List UnixMs) :
    within rule later (within rule now l) = within rule later l := by
  rw [within, within, filter_filter]
  refine filter_congr fun t _ => ?_
  by_cases ht : later - rule.windowMs ≤ t
  · have : now - rule.windowMs ≤ t := (Int.sub_le_sub_right h _).trans ht
    simp [ht, this]
  · simp [ht]

/-- What a message leaves in a counter: the matches within the window and itself if it is a match,
else what was there. -/
theorem take_counters (hrule : rule ∈ s.snapshot.rules)
    (hquiet : ∀ node now, s.inMaintenance node now = false) (hcount : 1 < rule.minCount)
    (hinfo : rule.severity ≠ .info) (node : NodeId) :
    (s.take a now).1.runtime.counters rule.id node
      = if s.isMatch rule node a then s.runtime.recent rule node now
        else s.runtime.counters rule.id node := by
  by_cases hmatch : s.isMatch rule node a = true
  · obtain ⟨hnode, hmem, hfires⟩ := (isMatch_iff hrule).1 hmatch
    simp only [take, hnode, hmatch, if_true]
    rw [plan_runtime (hquiet node now)]
    exact (tryAll_of_fires _ (s.rulesFor_distinct a node) hmem hfires hinfo).1 hcount
  · rw [if_neg hmatch, take]
    split
    next => rfl
    next n hnode =>
      show (s.plan a n now).runtime.counters rule.id node = _
      rw [plan_runtime (hquiet n now)]
      refine tryAll_counters_of_idle _ ?_
      rintro rfl r hr hid
      obtain rfl := inj_on_of_nodup_map s.snapshot.distinct (mem_rulesFor hr) hrule hid
      rw [isMatch_iff hrule, not_and, not_and] at hmatch
      simpa using hmatch hnode hr

/-- The matches within the window, with the new one. -/
theorem Counted.recent_eq (h : Counted s₀ past s) (hrule : rule ∈ s₀.snapshot.rules)
    (hcount : 1 < rule.minCount) (hinfo : rule.severity ≠ .info) (node : NodeId) (now : UnixMs) :
    s.runtime.recent rule node now
      = within rule now (s.runtime.counters rule.id node) ++ [now] := by
  rw [recent, dropWhile_lt_eq_filter (h.sorted rule hrule hcount hinfo node), within]

theorem Counted.take (h : Counted s₀ past s)
    (hquiet : ∀ node now, s₀.inMaintenance node now = false)
    (hclock : (eventTimes (past ++ [.event a now])).Pairwise (· ≤ ·)) :
    Counted s₀ (past ++ [.event a now]) (s.take a now).1 := by
  have hquiet' : ∀ node now, s.inMaintenance node now = false :=
    fun node now => (h.setup.inMaintenance node now).trans (hquiet node now)
  have hcounters : ∀ rule ∈ s₀.snapshot.rules, 1 < rule.minCount → rule.severity ≠ .info →
      ∀ node, (s.take a now).1.runtime.counters rule.id node
        = if s₀.isMatch rule node a then
            within rule now (s.runtime.counters rule.id node) ++ [now]
          else s.runtime.counters rule.id node := by
    intro rule hrule hcount hinfo node
    have hmatch : s.isMatch rule node a = s₀.isMatch rule node a := by
      rw [isMatch, isMatch, h.setup.nodeOf, h.setup.config]
    rw [take_counters (h.setup.snapshot ▸ hrule) hquiet' hcount hinfo, hmatch,
      h.recent_eq hrule hcount hinfo]
  refine ⟨(s.take_setup a now).trans h.setup, ?_, ?_, ?_⟩
  · intro rule hrule hcount hinfo node
    rw [hcounters rule hrule hcount hinfo]
    split
    · refine pairwise_append.2 ⟨(h.sorted rule hrule hcount hinfo node).filter _, by simp, ?_⟩
      intro t ht u hu
      rw [mem_singleton.1 hu]
      exact eventTimes_le hclock t
        (h.earlier rule hrule hcount hinfo node t (mem_filter.1 ht).1)
    · exact h.sorted rule hrule hcount hinfo node
  · intro rule hrule hcount hinfo node t ht
    rw [hcounters rule hrule hcount hinfo] at ht
    rw [eventTimes_append]
    split at ht
    · rcases mem_append.1 ht with ht | ht
      · exact mem_append_left _
          (h.earlier rule hrule hcount hinfo node t (mem_filter.1 ht).1)
      · exact mem_append_right _ (by simpa [eventTimes] using ht)
    · exact mem_append_left _ (h.earlier rule hrule hcount hinfo node t ht)
  · intro rule hrule hcount hinfo node later hlater
    have hold := h.window rule hrule hcount hinfo node later
      fun op hop => hlater op (mem_append_left _ hop)
    have hnow : now ≤ later := hlater (.event a now) (by simp)
    rw [hcounters rule hrule hcount hinfo, received_append, within_append, ← hold]
    split
    next hmatch => rw [within_append, within_within hnow]; simp [received, hmatch]
    next hmatch => simp [received, hmatch, within]

/-- A counter that a sweep forgets holds nothing that a rule the API admits could still count. -/
theorem within_eq_nil_of_old (hadmitted : rule.admitted = true) {times : List UnixMs}
    (hsorted : times.Pairwise (· ≤ ·)) {later : UnixMs} (hle : now ≤ later)
    (hold : (times.getLast?.any fun t => decide (now - counterMaxAgeMs ≤ t)) = false) :
    within rule later times = [] := by
  rw [within, filter_eq_nil_iff]
  intro t ht hrecent
  obtain ⟨last, hlast⟩ : ∃ last, times.getLast? = some last :=
    ⟨_, getLast?_eq_some_getLast (ne_nil_of_mem ht)⟩
  have hlast_ge : t ≤ last := by
    obtain ⟨init, rfl⟩ := getLast?_eq_some_iff.1 hlast
    rcases mem_append.1 ht with ht | ht
    · exact (pairwise_append.1 hsorted).2.2 t ht last (by simp)
    · exact (mem_singleton.1 ht).le
  rw [hlast] at hold
  have hwindow : rule.windowSecs ≤ 3600 := by
    simp only [admitted, Bool.and_eq_true, decide_eq_true_eq] at hadmitted
    exact hadmitted.2.2
  have hage : ∀ now later t last : Int, now ≤ later → t ≤ last →
      later - rule.windowSecs * 1000 ≤ t → ¬ now - 2 * 3600 * 1000 ≤ last → False := by
    intro now later t last hle hge hrecent hold
    omega
  exact hage now later t last hle hlast_ge (of_decide_eq_true hrecent) (of_decide_eq_false hold)

theorem Counted.sweep (h : Counted s₀ past s)
    (hadmitted : ∀ rule ∈ s₀.snapshot.rules, rule.admitted = true) (order : List CheckId) :
    Counted s₀ (past ++ [.sweep now order]) (s.sweep now order).1 := by
  refine ⟨(s.sweep_setup now order).trans h.setup, ?_, ?_, ?_⟩
  · intro rule hrule hcount hinfo node
    rw [sweep_counters]
    split
    · exact h.sorted rule hrule hcount hinfo node
    · exact List.Pairwise.nil
  · intro rule hrule hcount hinfo node t ht
    rw [sweep_counters] at ht
    split at ht
    · rw [eventTimes_append]
      exact mem_append_left _ (h.earlier rule hrule hcount hinfo node t ht)
    · simp at ht
  · intro rule hrule hcount hinfo node later hlater
    have hold := h.window rule hrule hcount hinfo node later
      fun op hop => hlater op (mem_append_left _ hop)
    have hreceived : s₀.received rule node (past ++ [.sweep now order])
        = s₀.received rule node past := by
      simp [received]
    rw [hreceived, ← hold, sweep_counters]
    split
    next => rfl
    next hforgot =>
      have hnow : now ≤ later := hlater (.sweep now order) (by simp)
      rw [within_eq_nil_of_old (hadmitted rule hrule) (h.sorted rule hrule hcount hinfo node) hnow
        (by simpa using hforgot)]
      rfl

/-- A match that completes the count opens the alert. -/
theorem Counted.take_opens (h : Counted s₀ past s) (hexact : s.Exact)
    (hquiet : ∀ node now, s₀.inMaintenance node now = false) (hrule : rule ∈ s₀.snapshot.rules)
    (hinfo : rule.severity ≠ .info) (hmatch : s₀.isMatch rule node a = true)
    (hlast : ∀ op ∈ past, op.time ≤ now) (hmany : rule.minCount
      ≤ (within rule now (s₀.received rule node (past ++ [.event a now]))).length) :
    ((s.take a now).1.manager.active (rule.check node)).isSome := by
  rw [hexact.take a now]
  obtain ⟨hnode, hmem, hfires⟩ := (isMatch_iff hrule).1 hmatch
  rw [← h.setup.nodeOf] at hnode
  rw [← h.setup.rulesFor] at hmem
  simp only [EventSystem.take, hnode]
  rw [plan_runtime ((h.setup.inMaintenance node now).trans (hquiet node now))]
  refine (tryAll_of_fires _ (s.rulesFor_distinct a node) hmem hfires hinfo).2 ?_
  by_cases hcount : 1 < rule.minCount
  · refine .inr (hmany.trans (le_of_eq ?_))
    have hself : within rule now (s₀.received rule node [.event a now]) = [now] := by
      have hpos : 0 ≤ rule.windowMs := by
        rw [windowMs]
        omega
      simp [received, hmatch, within, hpos]
    rw [h.recent_eq hrule hcount hinfo, h.window rule hrule hcount hinfo node now hlast,
      received_append, within_append, hself]
  · exact .inl (Nat.not_lt.1 hcount)

/-! ### Every run -/

section
variable {snapshot : Snapshot} {addresses : IpAddr → Option PoolName → Option NodeId}
  {config : AlertConfig}

theorem installed_exact : (installed snapshot addresses config).Exact := fun _ => rfl

theorem installed_mirrors :
    Mirrors (installed snapshot addresses config) [] (installed snapshot addresses config)
      (installed snapshot addresses config) where
  setup := ⟨rfl, rfl, rfl⟩
  setup' := ⟨rfl, rfl, rfl⟩
  exact := installed_exact
  exact' := installed_exact
  alike := ⟨rfl, fun _ => .same _⟩
  ahead := by
    intro rule _ node t ht
    simp [installed, start, new] at ht

theorem installed_counted :
    Counted (installed snapshot addresses config) [] (installed snapshot addresses config) where
  setup := ⟨rfl, rfl, rfl⟩
  sorted := fun _ _ _ _ _ => List.Pairwise.nil
  earlier := by
    intro rule _ _ _ node t ht
    simp [installed, start, new] at ht
  window := fun _ _ _ _ _ _ _ => rfl

/-- What the engine without the test keeps in every run. -/
theorem Counted.run (snapshot : Snapshot) (addresses : IpAddr → Option PoolName → Option NodeId)
    (config : AlertConfig) (hadmitted : ∀ rule ∈ snapshot.rules, rule.admitted = true)
    (hquiet : ∀ node now, (installed snapshot addresses config).inMaintenance node now = false)
    {ops : List Traffic} (hclock : (eventTimes ops).Pairwise (· ≤ ·)) :
    let s := ops.foldl serveEvery (installed snapshot addresses config)
    Counted (installed snapshot addresses config) ops s ∧ s.Exact := by
  have hany : Meets (fun _ _ => True) serveEvery (installed snapshot addresses config) ops :=
    Meets.of_forall (fun _ _ => trivial) _
  refine hany.history (I := fun past (s : EventSystem) => (eventTimes past).Pairwise (· ≤ ·) →
    Counted (installed snapshot addresses config) past s ∧ s.Exact) ?_
    (fun _ => ⟨installed_counted, installed_exact⟩) hclock
  intro past s op _ hs hclock
  obtain ⟨hcounted, hexact⟩ := hs (eventTimes_pairwise hclock)
  cases op with
  | event a now => exact ⟨hcounted.take hquiet hclock, hexact.take a now⟩
  | sweep now order => exact ⟨hcounted.sweep hadmitted order, hexact.sweep now order⟩

end

/-- In every run in which no message is dropped that would have changed something: the open alerts
are those of the engine without the repeat test. After a message that hits a clear pattern the
rule's alert on the node is closed. After a match that completes the count within the window it is
open, given that no sweep ran ahead of the message's time. -/
theorem repeats_change_nothing (hash : Content → Nat) (snapshot : Snapshot)
    (addresses : IpAddr → Option PoolName → Option NodeId) (config : AlertConfig)
    (hadmitted : ∀ rule ∈ snapshot.rules, rule.admitted = true)
    (hquiet : ∀ node now, (installed snapshot addresses config).inMaintenance node now = false)
    (ops : List Traffic) (hclock : (eventTimes ops).Pairwise (· ≤ ·))
    (hharmless : Meets (fun s op => s.harmless hash op = true) (serve hash)
      (installed snapshot addresses config) ops) :
    let s₀ := installed snapshot addresses config
    let s := ops.foldl (serve hash) s₀
    (∀ c, (s.manager.active c).isSome = ((ops.foldl serveEvery s₀).manager.active c).isSome) ∧
    ∀ before a now, ops = before ++ [.event a now] → ∀ node, s₀.nodeOf a = some node →
      ∀ rule ∈ s₀.rulesFor a node,
        (rule.clearHit a.msg.haystack = true → s.manager.active (rule.check node) = none) ∧
        (rule.fires a.msg.haystack = true → rule.severity ≠ .info →
          (∀ op ∈ before, op.time ≤ now) →
          rule.minCount ≤ (within rule now (s₀.received rule node ops)).length →
          (s.manager.active (rule.check node)).isSome) := by
  intro s₀ s
  have hmirrors : Mirrors s₀ ops s (ops.foldl serveEvery s₀) :=
    hharmless.simulation (R := fun past s s' => (eventTimes past).Pairwise (· ≤ ·) →
      Mirrors s₀ past s s')
      (fun past s s' op hop hs hclock =>
        (hs (eventTimes_pairwise hclock)).step hquiet hclock hop)
      (fun _ => installed_mirrors) hclock
  have hsame : ∀ c, (s.manager.active c).isSome
      = ((ops.foldl serveEvery s₀).manager.active c).isSome := by
    intro c
    rw [hmirrors.exact, hmirrors.exact', (hmirrors.alike.active c).isSome_eq]
  refine ⟨hsame, ?_⟩
  rintro before a now rfl node hnode rule hrule
  obtain ⟨hcounted, hexact⟩ := Counted.run snapshot addresses config hadmitted hquiet
    (eventTimes_pairwise hclock)
  have hlast : (before ++ [Traffic.event a now]).foldl serveEvery s₀
      = ((before.foldl serveEvery s₀).take a now).1 := by
    rw [List.foldl_append]
    rfl
  rw [hlast] at hsame
  constructor
  · intro hhit
    have hclosed := hexact.take_clears ((hcounted.setup.nodeOf a).trans hnode)
      ((hcounted.setup.inMaintenance node now).trans (hquiet node now))
      (hcounted.setup.rulesFor a node ▸ hrule) hhit
    have := hsame (rule.check node)
    rw [hclosed] at this
    simpa using this
  · intro hfires hinfo htimes hmany
    rw [hsame]
    exact hcounted.take_opens hexact hquiet (mem_rulesFor hrule) hinfo
      ((isMatch_iff (mem_rulesFor hrule)).2 ⟨hnode, hrule, hfires⟩) htimes hmany

/-! ### Repeats that matter -/

/-- An engine with that rule, in which the address of a node is its id. -/
def linkEngine (minCount : Nat) : EventSystem :=
  installed (linkSnapshot minCount) (fun ip _ => some ip) .default

/-- Messages of node 1, a second apart. -/
def seconds (texts : List String) : List Traffic :=
  texts.zipIdx.map fun (text, i) => .event (syslog text) (i * 1000)

/-- The second of two equal messages is dropped, and the alert is open all the same. -/
theorem repeats_change_nothing_down_twice :
    let ops := seconds ["link down", "link down"]
    let s := ops.foldl (serve lengthHash) (linkEngine 1)
    s.dropped.length = 1 ∧ (s.manager.active linkCheck).isSome ∧
      (s.manager.active linkCheck).isSome
        = ((ops.foldl serveEvery (linkEngine 1)).manager.active linkCheck).isSome := by
  refine ⟨by decide +kernel, by decide +kernel, ?_⟩
  exact (repeats_change_nothing lengthHash (linkSnapshot 1) (fun ip _ => some ip) .default
    (by simp [linkSnapshot, linkRule, admitted]) (fun _ _ => rfl)
    (seconds ["link down", "link down"]) (by decide +kernel) (by decide +kernel)).1 linkCheck

/-- Three runs in which a dropped repeat matters: a clear that came once before the alert was
raised, a match that came once before the alert was cleared, and the second of two matches that
have to be counted. The two texts have different hashes. -/
theorem dropped_repeats_matter :
    let isOpen := fun s : EventSystem => (s.manager.active linkCheck).isSome
    let cleared := seconds ["link up", "link down", "link up"]
    let raised := seconds ["link down", "link up", "link down"]
    let counted := seconds ["link down", "link down"]
    lengthHash (syslog "link down").content ≠ lengthHash (syslog "link up").content ∧
    (isOpen (cleared.foldl (serve lengthHash) (linkEngine 1)) = true ∧
      isOpen (cleared.foldl serveEvery (linkEngine 1)) = false) ∧
    (isOpen (raised.foldl (serve lengthHash) (linkEngine 1)) = false ∧
      isOpen (raised.foldl serveEvery (linkEngine 1)) = true) ∧
    (isOpen (counted.foldl (serve lengthHash) (linkEngine 2)) = false ∧
      isOpen (counted.foldl serveEvery (linkEngine 2)) = true) := by
  decide +kernel

end EventSystem

end Yagra.Events
