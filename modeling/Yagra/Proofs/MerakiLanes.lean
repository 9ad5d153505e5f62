import Mathlib.Data.List.Chain
import Mathlib.Data.List.TakeWhile
import Yagra.Meraki.Schedule

/-!
# `Yagra.Proofs.MerakiLanes`: which collects get their turn

The fast lane sends the first tier that is due, and a tier that could not be sent stays due. So a
tier waits for the tiers that are looked at before it. `pending` counts those that can still go
first. Every tick in which they can have their turn lowers it, and after at most three ticks it is
the tier's own turn (`fast_tier_served`). A tier whose publish always fails is in front of the later
ones for ever (`failing_tier_starves_uplink`).

The slow lane asks about the switch ports before the SSIDs. A read of the SSIDs that has waited
long enough goes when the switch ports are not due (`ssid_read_goes_when_ports_not_due`). When every
collect of the switch ports takes until they are due again, there is no such moment
(`busy_ports_starve_ssid_read`).
-/

set_option autoImplicit false

namespace Yagra.Meraki

open Yagra.Lib MerakiWork Function MerakiInflight MerakiSchedule Option List
open MerakiLane (of)

/-! ### Lanes and clocks -/

variable {tier : MerakiTier}

theorem lane_eq_slow {slow : SlowReads} (h : of tier slow = .slow) :
    tier = .switchPorts ∨ (⟨tier, slow⟩ : MerakiWork).isSsidRead = true := by
  cases tier with
  | switchPorts => exact .inl rfl
  | wireless =>
    cases hs : slow.ssidStatuses with
    | true => exact .inr (by simp [isSsidRead, hs])
    | false => simp [of, hs] at h
  | availability | uplink | traffic | inventory => simp [of] at h

/-- A tier of the fast lane. -/
def MerakiTier.isFast (tier : MerakiTier) : Bool := decide (of tier .default = .fast)

theorem plain_not_ssidRead (tier : MerakiTier) : (plain tier).isSsidRead = false := by
  simp [isSsidRead, plain, SlowReads.default]

namespace MerakiSchedule

variable (s : MerakiSchedule)

/-- A turn of one organization leaves the clocks of another alone. -/
theorem dispatched_last_of_ne {org o : Uuid} (work : MerakiWork) (now : Instant) (h : o ≠ org) :
    (s.dispatched org work now).last o = s.last o := by
  rw [dispatched]
  split
  · rfl
  · exact update_of_ne h _ _

/-- A turn in the slow lane leaves the clocks of the fast tiers alone. -/
theorem dispatched_last_of_slow (org o : Uuid) {work : MerakiWork} (hlane : work.lane = .slow)
    (now : Instant) (htier : tier.isFast = true) :
    (s.dispatched org work now).last o tier = s.last o tier := by
  rw [dispatched]
  split
  · rfl
  next hssid =>
    have hports := (lane_eq_slow hlane).resolve_right hssid
    have hne : tier ≠ work.tier := by
      rintro rfl
      rw [hports] at htier
      exact absurd htier (by decide)
    by_cases ho : o = org
    · subst ho
      simp [hne]
    · simp [ho]

theorem dispatched_last_plain (org : Uuid) (tier : MerakiTier) (now : Instant)
    (tier' : MerakiTier) :
    (s.dispatched org (.plain tier) now).last org tier'
      = if tier' = tier then some now else s.last org tier' := by
  rw [dispatched, if_neg (by simp [plain_not_ssidRead])]
  simp [update_apply, plain]

end MerakiSchedule

namespace MerakiInflight

theorem take_flights {i i' : MerakiInflight} {org job : Uuid} {lane : MerakiLane} {lease : Nat}
    {now : Instant} (h : i.take org lane job lease now = some i') (o : Uuid) (l : MerakiLane) :
    i'.flights o l = if o = org ∧ l = lane then some ⟨job, now + lease⟩ else i.flights o l := by
  rw [MerakiInflight.take] at h
  split at h
  · cases h
  · rw [← some.inj h]
    by_cases ho : o = org
    · subst ho
      simp [update_apply]
    · simp [ho]

theorem isInflight_of_none {i : MerakiInflight} {org : Uuid} {lane : MerakiLane}
    (h : i.flights org lane = none) (now : Instant) : i.isInflight org lane now = false := by
  rw [isInflight, h]
  rfl

end MerakiInflight

/-! ### What an attempt does -/

/-- The collect is sent when its lane is free. -/
structure Sends (reads : TickReads) (org : MerakiOrg) (work : MerakiWork) : Prop where
  devices : ∃ d ds, reads.deviceRefs org.id work.tier = some (d :: ds)
  networks : ∃ n ns, reads.monitoredNetworks org.id = some (n :: ns)
  key : (reads.key org.credentialId).isSome
  publishes : reads.publishes org.id work = true

/-- The collect has its turn when its lane is free: it is sent, or it has no device. -/
def TakesTurn (reads : TickReads) (org : MerakiOrg) (work : MerakiWork) : Prop :=
  reads.deviceRefs org.id work.tier = some [] ∨ Sends reads org work

variable {reads : TickReads} {org : MerakiOrg} {s : MerakiScheduler} {work : MerakiWork}

namespace MerakiScheduler

section

variable (reads : TickReads) (org : MerakiOrg) (s : MerakiScheduler) (work : MerakiWork)

/-- An attempt gives the collect its turn, or leaves the schedule as it is. -/
theorem attempt_cases :
    (attempt reads org s work).2 = [] ∧ (attempt reads org s work).1.schedule = s.schedule ∨
    (∃ sent, (attempt reads org s work).2 = [⟨org.id, work, reads.now, sent⟩]) ∧
      (attempt reads org s work).1.schedule = s.schedule.dispatched org.id work reads.now := by
  simp only [attempt]
  split
  · exact .inl ⟨rfl, rfl⟩
  · exact .inr ⟨⟨false, rfl⟩, rfl⟩
  · split
    · split
      · exact .inl ⟨rfl, rfl⟩
      · split
        · exact .inr ⟨⟨true, rfl⟩, rfl⟩
        · exact .inl ⟨rfl, rfl⟩
    · exact .inl ⟨rfl, rfl⟩

/-- An attempt leaves the lanes as they are, or takes the lane of its collect. A publish that fails
frees the lane again. -/
theorem attempt_inflight :
    (attempt reads org s work).1.inflight = s.inflight ∨
    ∃ i, s.inflight.take org.id work.lane (reads.jobId org.id work.lane) lease reads.now = some i ∧
      (attempt reads org s work).1.inflight = if reads.publishes org.id work then i
        else i.complete (reads.jobId org.id work.lane) := by
  simp only [attempt]
  split
  · exact .inl rfl
  · exact .inl rfl
  · split
    · split
      · exact .inl rfl
      next i htake =>
        refine .inr ⟨i, htake, ?_⟩
        split <;> rfl
    · exact .inl rfl

end

/-- A flight after an attempt was there before, or is that of its collect. -/
theorem attempt_flight {o : Uuid} {l : MerakiLane} {f : Flight}
    (h : (attempt reads org s work).1.inflight.flights o l = some f) :
    s.inflight.flights o l = some f ∨
      (o = org.id ∧ l = work.lane) ∧ f.job = reads.jobId org.id work.lane := by
  rcases attempt_inflight reads org s work with heq | ⟨i, htake, heq⟩
  · exact .inl (heq ▸ h)
  · have hi : i.flights o l = some f := by
      rw [heq] at h
      split at h
      · exact h
      · exact (filter_eq_some_iff.1 h).1
    rw [take_flights htake] at hi
    split at hi
    next hown =>
      refine .inr ⟨hown, ?_⟩
      rw [← some.inj hi]
    · exact .inl hi

/-- An attempt takes no lane but that of its own collect. -/
theorem attempt_isInflight {o : Uuid} {l : MerakiLane} {t : Instant}
    (hne : o ≠ org.id ∨ l ≠ work.lane)
    (h : (attempt reads org s work).1.inflight.isInflight o l t = true) :
    s.inflight.isInflight o l t = true := by
  obtain ⟨f, hf, ht⟩ := (any_eq_true _ _).1 h
  rcases attempt_flight hf with hbefore | ⟨hown, -⟩
  · exact (any_eq_true _ _).2 ⟨f, hbefore, ht⟩
  · exact absurd hown (not_and_or.2 hne)

/-- A collect that can be sent is sent when its lane is free. -/
theorem attempt_sends (hsends : Sends reads org work)
    (hfree : s.inflight.isInflight org.id work.lane reads.now = false) :
    (attempt reads org s work).2 = [⟨org.id, work, reads.now, true⟩] ∧
      (attempt reads org s work).1.schedule = s.schedule.dispatched org.id work reads.now := by
  obtain ⟨⟨d, ds, hdevices⟩, ⟨n, ns, hnetworks⟩, hkey, hpublishes⟩ := hsends
  obtain ⟨key, hkey⟩ := isSome_iff_exists.1 hkey
  simp [attempt, hdevices, hnetworks, networksToCollect, hkey, hpublishes, MerakiInflight.take,
    hfree]

/-- A collect that can have its turn has it when its lane is free. -/
theorem attempt_takesTurn (hturn : TakesTurn reads org work)
    (hfree : s.inflight.isInflight org.id work.lane reads.now = false) :
    (attempt reads org s work).1.schedule = s.schedule.dispatched org.id work reads.now := by
  rcases hturn with hnone | hsends
  · simp [attempt, hnone]
  · exact (attempt_sends hsends hfree).2

end MerakiScheduler

/-! ### What a tick does -/

/-- What the attempts and the setting of the interval keep, a tick keeps. -/
theorem MerakiScheduler.tick_history {I : List Turn → MerakiScheduler → Prop}
    (hset : ∀ log s every,
      I log s → I log { s with schedule := s.schedule.setNeighborInterval every })
    (hattempt : ∀ org log s work,
      I log s → I (log ++ (attempt reads org s work).2) (attempt reads org s work).1)
    (log : List Turn) (h : I log s) : I (log ++ (s.tick reads).2) (s.tick reads).1 := by
  rw [tick]
  split
  · simpa using h
  · split
    · simpa using hset log s _ h
    · refine emitAll_history (tickOrg reads) (fun log s org _ h => ?_) (hset log s _ h)
      exact emitAll_history _ (fun log s work _ h => hattempt org log s work h) h

/-! ### What a tick does to the fast lane of one organization -/

/-- The clocks of the fast tiers of an organization are the same, and its fast lane is held only if
it was held. -/
structure KeepsFast (o : Uuid) (s s' : MerakiScheduler) : Prop where
  last : ∀ tier : MerakiTier, tier.isFast = true → s'.schedule.last o tier = s.schedule.last o tier
  held : ∀ t, s'.inflight.isInflight o .fast t = true → s.inflight.isInflight o .fast t = true

namespace KeepsFast

theorem refl (o : Uuid) (s : MerakiScheduler) : KeepsFast o s s := ⟨fun _ _ => rfl, fun _ h => h⟩

theorem trans {o : Uuid} {s₁ s₂ s₃ : MerakiScheduler} (h : KeepsFast o s₁ s₂)
    (h' : KeepsFast o s₂ s₃) : KeepsFast o s₁ s₃ where
  last := fun tier htier => (h'.last tier htier).trans (h.last tier htier)
  held := fun t ht => h.held t (h'.held t ht)

theorem emitAll {α : Type} {f : MerakiScheduler → α → MerakiScheduler × List Turn} {o : Uuid}
    {l : List α} (hf : ∀ s, ∀ a ∈ l, KeepsFast o s (f s a).1) (s : MerakiScheduler) :
    KeepsFast o s (emitAll f s l).1 :=
  emitAll_invariant f (P := KeepsFast o s) (fun s' a ha h => h.trans (hf s' a ha)) (.refl o s)

theorem free {o : Uuid} {s' : MerakiScheduler} (h : KeepsFast o s s') {now : Instant}
    (hfree : s.inflight.isInflight o .fast now = false) :
    s'.inflight.isInflight o .fast now = false := by
  by_contra hheld
  rw [h.held now (by simpa using hheld)] at hfree
  cases hfree

end KeepsFast

/-- The fast tiers of an organization in the order they are looked at. -/
def fastTiers (org : MerakiOrg) : List MerakiTier := org.activeTiers.filter MerakiTier.isFast

/-- The fast tier whose turn it is. -/
def MerakiSchedule.firstDue (s : MerakiSchedule) (org : MerakiOrg) (now : Instant) :
    Option MerakiTier :=
  (fastTiers org).find? fun tier => s.isDue org tier now

/-- The pool can run every tier. -/
def PoolCaps.full : PoolCaps := ⟨true, true⟩

theorem poolCanRun_full (tier : MerakiTier) : poolCanRun tier .full = true := by cases tier <;> rfl

namespace MerakiScheduler

theorem attempt_keepsFast_of_ne {o : Uuid} (ho : o ≠ org.id) (s : MerakiScheduler)
    (work : MerakiWork) : KeepsFast o s (attempt reads org s work).1 where
  last := by
    intro tier _
    rcases attempt_cases reads org s work with ⟨-, h⟩ | ⟨-, h⟩ <;> rw [h]
    rw [dispatched_last_of_ne _ _ _ ho]
  held := fun _ h => attempt_isInflight (.inl ho) h

theorem attempt_keepsFast_of_slow (o : Uuid) (hlane : work.lane = .slow) (s : MerakiScheduler) :
    KeepsFast o s (attempt reads org s work).1 where
  last := by
    intro tier htier
    rcases attempt_cases reads org s work with ⟨-, h⟩ | ⟨-, h⟩ <;> rw [h]
    exact s.schedule.dispatched_last_of_slow _ o hlane _ htier
  held := fun _ h => attempt_isInflight (.inr (by rw [hlane]; simp)) h

theorem slowWork_lane {sch : MerakiSchedule} {tiers : List MerakiTier} {now : Instant}
    (h : sch.slowWork org tiers now = some work) : work.lane = .slow := by
  simp only [slowWork] at h
  split at h
  · rw [← some.inj h]
    rfl
  · split at h
    · cases h
    · split at h
      · cases h
      · split at h
        · rw [← some.inj h]
          rfl
        · cases h

/-- What is sent in the slow lane comes first, and keeps the fast lane. -/
theorem slow_keepsFast (o : Uuid) (s s' : MerakiScheduler) (now : Instant) (caps : PoolCaps) :
    KeepsFast o s' (emitAll (attempt reads org) s' (s.planFor org now caps).slow.toList).1 := by
  refine KeepsFast.emitAll (fun s'' work hwork => ?_) s'
  have hslow : (s.planFor org now caps).slow = some work := by simpa using hwork
  simp only [planFor, plan] at hslow
  split at hslow
  · exact attempt_keepsFast_of_slow o (slowWork_lane hslow) s''
  · cases hslow

theorem planFor_fast (s : MerakiScheduler) (org : MerakiOrg) {now : Instant}
    (hfree : s.inflight.isInflight org.id .fast now = false) :
    (s.planFor org now .full).fast = (s.schedule.firstDue org now).map .plain := by
  have htiers : (org.activeTiers.filter fun t => poolCanRun t .full) = org.activeTiers := by
    simp [poolCanRun_full]
  simp only [planFor, plan, hfree, Bool.not_false, if_true, htiers,
    fastWork, firstDue, fastTiers, find?_filter]
  congr 2
  funext tier
  simp [MerakiTier.isFast]

/-- The tick looks at the organization with every capability and its fast lane free. -/
structure Ready (reads : TickReads) (org : MerakiOrg) (s : MerakiScheduler) : Prop where
  enabled : reads.pollingEnabled = true
  listed : ∃ orgs, reads.orgs = some orgs ∧ org ∈ orgs ∧ (orgs.map MerakiOrg.id).Nodup
  caps : reads.caps = .full
  free : s.inflight.isInflight org.id .fast reads.now = false

/-- The part of a tick that is about one organization: what comes before and after it keeps the
fast lane. -/
theorem tick_split (hready : Ready reads org s) :
    ∃ (s₁ : MerakiScheduler) (before after : List Turn), KeepsFast org.id s s₁ ∧
      KeepsFast org.id (tickOrg reads s₁ org).1 (s.tick reads).1 ∧
      (s.tick reads).2 = before ++ (tickOrg reads s₁ org).2 ++ after := by
  obtain ⟨orgs, horgs, hmem, hnodup⟩ := hready.listed
  obtain ⟨ahead, behind, rfl⟩ := append_of_mem hmem
  have hids : ∀ o ∈ ahead ++ behind, org.id ≠ o.id := by
    intro o ho heq
    rw [map_append] at hnodup
    have hcons := nodup_cons.1 (perm_middle.nodup_iff.1 hnodup)
    refine hcons.1 ?_
    rw [heq, ← map_append]
    exact mem_map_of_mem ho
  have hother : ∀ l : List MerakiOrg, (∀ o ∈ l, org.id ≠ o.id) → ∀ s',
      KeepsFast org.id s' (emitAll (tickOrg reads) s' l).1 := by
    intro l hl s'
    refine KeepsFast.emitAll (fun s'' o ho => ?_) s'
    exact KeepsFast.emitAll (fun t work _ => attempt_keepsFast_of_ne (hl o ho) t work) s''
  simp only [tick, hready.enabled, Bool.not_true, Bool.false_eq_true, if_false, horgs,
    emitAll_append, emitAll_cons]
  set s₀ : MerakiScheduler :=
    { s with schedule := s.schedule.setNeighborInterval reads.neighborEvery } with hs₀
  refine ⟨(emitAll (tickOrg reads) s₀ ahead).1, (emitAll (tickOrg reads) s₀ ahead).2, _, ?_, ?_,
    (append_assoc _ _ _).symm⟩
  · have hset : KeepsFast org.id s s₀ := ⟨fun _ _ => rfl, fun _ h => h⟩
    exact hset.trans (hother ahead (fun o ho => hids o (mem_append_left _ ho)) s₀)
  · exact hother behind (fun o ho => hids o (mem_append_right _ ho)) _

theorem firstDue_congr {s' : MerakiScheduler} (h : KeepsFast org.id s s') (now : Instant) :
    s'.schedule.firstDue org now = s.schedule.firstDue org now := by
  rw [firstDue, firstDue, ← head?_filter, ← head?_filter]
  refine congrArg head? (filter_congr fun tier htier => ?_)
  have hfast : tier.isFast = true := (mem_filter.1 htier).2
  rw [isDue, isDue, dueWithin, dueWithin, h.last tier hfast]

/-- The fast lane of an organization in a tick. The tier whose turn it is has it if it can, and is
sent if it can. The clocks of the other fast tiers stay. -/
theorem tick_fast (hready : Ready reads org s) :
    (∀ tier : MerakiTier, tier.isFast = true →
      s.schedule.firstDue org reads.now ≠ some tier →
      (s.tick reads).1.schedule.last org.id tier = s.schedule.last org.id tier) ∧
    (∀ tier, s.schedule.firstDue org reads.now = some tier → TakesTurn reads org (.plain tier) →
      (s.tick reads).1.schedule.last org.id tier = some reads.now) ∧
    ∀ tier, s.schedule.firstDue org reads.now = some tier → Sends reads org (.plain tier) →
      ⟨org.id, .plain tier, reads.now, true⟩ ∈ (s.tick reads).2 := by
  obtain ⟨s₁, before, after, hahead, hbehind, hout⟩ := tick_split hready
  -- After the slow lane had its part, the fast lane is as it was.
  have hslow : KeepsFast org.id s₁ (emitAll (attempt reads org) s₁
      (s₁.planFor org reads.now reads.caps).slow.toList).1 :=
    slow_keepsFast org.id s₁ s₁ reads.now reads.caps
  set s₂ := (emitAll (attempt reads org) s₁ (s₁.planFor org reads.now reads.caps).slow.toList).1
    with hs₂
  have hkeeps : KeepsFast org.id s s₂ := hahead.trans hslow
  have hfast : (s₁.planFor org reads.now reads.caps).fast
      = (s.schedule.firstDue org reads.now).map .plain := by
    rw [hready.caps, planFor_fast s₁ org (hahead.free hready.free), firstDue_congr hahead]
  have hown : tickOrg reads s₁ org = ((emitAll (attempt reads org) s₂
        ((s.schedule.firstDue org reads.now).map plain).toList).1,
      (emitAll (attempt reads org) s₁ (s₁.planFor org reads.now reads.caps).slow.toList).2 ++
        (emitAll (attempt reads org) s₂
          ((s.schedule.firstDue org reads.now).map plain).toList).2) := by
    rw [tickOrg, LanePlan.works, emitAll_append, hfast]
  rw [hown] at hbehind hout
  have hlane : ∀ tier, s.schedule.firstDue org reads.now = some tier →
      (plain tier).lane = .fast ∧ tier.isFast = true := by
    intro tier htier
    have hmem := mem_of_find?_eq_some htier
    have hisFast : tier.isFast = true := (mem_filter.1 hmem).2
    exact ⟨of_decide_eq_true hisFast, hisFast⟩
  have hfree := hkeeps.free hready.free
  refine ⟨?_, ?_, ?_⟩
  · intro tier htier hne
    rw [hbehind.last tier htier]
    cases hdue : s.schedule.firstDue org reads.now with
    | none => exact hkeeps.last tier htier
    | some first =>
      rw [hdue] at hne
      simp only [map_some, toList_some, emitAll_singleton]
      rcases attempt_cases reads org s₂ (.plain first) with ⟨-, h⟩ | ⟨-, h⟩ <;> rw [h]
      · exact hkeeps.last tier htier
      · rw [dispatched_last_plain, if_neg fun heq => hne (by rw [heq])]
        exact hkeeps.last tier htier
  · intro tier hdue hturn
    rw [hbehind.last tier (hlane tier hdue).2, hdue]
    simp only [map_some, toList_some, emitAll_singleton]
    rw [attempt_takesTurn hturn (by rw [(hlane tier hdue).1]; exact hfree),
      dispatched_last_plain, if_pos rfl]
  · intro tier hdue hsends
    rw [hout, hdue]
    simp only [map_some, toList_some, emitAll_singleton]
    rw [(attempt_sends hsends (by rw [(hlane tier hdue).1]; exact hfree)).1]
    simp

end MerakiScheduler

/-! ### Turns in order -/

/-- The times of the ticks of a run. -/
def tickTimes (ops : List SchedulerOp) : List Instant :=
  ops.filterMap fun op => match op with
    | .tick reads => some reads.now
    | _ => none

/-- The fast tiers that are looked at before a tier. -/
def earlierTiers (org : MerakiOrg) (tier : MerakiTier) : List MerakiTier :=
  (fastTiers org).takeWhile fun t => decide (t ≠ tier)

theorem length_earlierTiers (h : tier ∈ fastTiers org) : (earlierTiers org tier).length ≤ 3 := by
  have hshort : ∀ l : List MerakiTier, tier ∈ l →
      (l.takeWhile fun t => decide (t ≠ tier)).length < l.length := by
    intro l hl
    induction l with
    | nil => cases hl
    | cons first rest ih =>
      by_cases hfirst : first = tier
      · simp [hfirst]
      · have hrest := ih ((mem_cons.1 hl).resolve_left fun h => hfirst h.symm)
        simpa [takeWhile_cons, hfirst] using hrest
  have hfour : (fastTiers org).length ≤ 4 := by
    have hsub : (fastTiers org).Sublist
        ((MerakiTier.all.filter fun t => decide (t ≠ .inventory)).filter MerakiTier.isFast) :=
      List.Sublist.filter _ filter_sublist
    exact hsub.length_le
  have := hshort _ h
  rw [earlierTiers]
  omega

theorem find?_eq_or_earlier {l : List MerakiTier} (h : tier ∈ l) {p : MerakiTier → Bool}
    (hp : p tier = true) :
    l.find? p = some tier ∨
      ∃ first ∈ l.takeWhile (fun t => decide (t ≠ tier)), l.find? p = some first := by
  induction l with
  | nil => cases h
  | cons x rest ih =>
    by_cases hx : x = tier
    · left
      simp [hx, hp]
    · have hrest := (mem_cons.1 h).resolve_left fun h => hx h.symm
      rw [takeWhile_cons_of_pos (by simpa using hx)]
      cases hpx : p x with
      | true => exact .inr ⟨x, mem_cons_self, by simp [hpx]⟩
      | false =>
        rcases ih hrest with hfound | ⟨first, hfirst, hfound⟩
        · exact .inl (by simpa [hpx] using hfound)
        · exact .inr ⟨first, mem_cons_of_mem _ hfirst, by simpa [hpx] using hfound⟩

theorem countP_lt {α : Type} {p q : α → Bool} {l : List α} (himp : ∀ a ∈ l, q a = true → p a = true)
    {a : α} (ha : a ∈ l) (hp : p a = true) (hq : q a = false) : l.countP q < l.countP p := by
  obtain ⟨before, after, rfl⟩ := append_of_mem ha
  have hbefore : before.countP q ≤ before.countP p :=
    countP_mono_left fun b hb => himp b (by simp [hb])
  have hafter : after.countP q ≤ after.countP p :=
    countP_mono_left fun b hb => himp b (by simp [hb])
  simp only [countP_append, countP_cons, hp, hq, if_true, Bool.false_eq_true, if_false]
  omega

variable {cadence : Nat}

theorem turn_before {now turn since : Nat} (hdue : cadence * 1000 ≤ now - turn + 0)
    (hmin : 60 ≤ cadence) (hbefore : now < since + 60000) : turn < since := by
  omega

/-- How many of the earlier tiers had no turn since `since`. -/
def pending (s : MerakiScheduler) (org : MerakiOrg) (tier : MerakiTier) (since : Instant) : Nat :=
  ((earlierTiers org tier).filter fun t =>
    (s.schedule.last org.id t).all fun l => decide (l < since)).length

/-- A tick serves a tier: it looks at the organization, the tier can be sent, and every tier that
is looked at before it can have its turn. -/
def Serves (org : MerakiOrg) (tier : MerakiTier) (s : MerakiScheduler) : SchedulerOp → Prop
  | .tick reads => MerakiScheduler.Ready reads org s ∧ Sends reads org (.plain tier) ∧
      ∀ earlier ∈ earlierTiers org tier, TakesTurn reads org (.plain earlier)
  | _ => True

/-- The tier was sent. -/
def Sent (org : MerakiOrg) (tier : MerakiTier) (turns : List Turn) : Prop :=
  ∃ time, ⟨org.id, .plain tier, time, true⟩ ∈ turns

variable {turns : List Turn}

theorem Sent.append_left (h : Sent org tier turns) (more : List Turn) :
    Sent org tier (turns ++ more) :=
  ⟨h.choose, mem_append_left _ h.choose_spec⟩

theorem Sent.append_right (h : Sent org tier turns) (more : List Turn) :
    Sent org tier (more ++ turns) :=
  ⟨h.choose, mem_append_right _ h.choose_spec⟩

namespace MerakiScheduler

variable {tier : MerakiTier}

theorem isFast_of_mem (h : tier ∈ fastTiers org) : tier.isFast = true := (mem_filter.1 h).2

theorem mem_of_mem_earlier {t : MerakiTier} (h : t ∈ earlierTiers org tier) :
    t ∈ fastTiers org ∧ t ≠ tier := by
  refine ⟨takeWhile_sublist _ |>.mem h, ?_⟩
  simpa using mem_takeWhile_imp h

/-- A tick that serves a tier sends it, or keeps its clock. -/
theorem tick_sent_or_keeps (h : tier ∈ fastTiers org) (hserves : Serves org tier s (.tick reads)) :
    Sent org tier (s.tick reads).2 ∨
      (s.tick reads).1.schedule.last org.id tier = s.schedule.last org.id tier := by
  obtain ⟨hready, hsends, -⟩ := hserves
  obtain ⟨hkeeps, -, hsent⟩ := tick_fast hready
  by_cases hdue : s.schedule.firstDue org reads.now = some tier
  · exact .inl ⟨reads.now, hsent tier hdue hsends⟩
  · exact .inr (hkeeps tier (isFast_of_mem h) hdue)

/-- A tick sends a tier that is due, or fewer of the earlier tiers are left without a turn. -/
theorem tick_sent_or_advances (hband : org.InBand) (h : tier ∈ fastTiers org)
    (hserves : Serves org tier s (.tick reads)) {since : Nat} (hsince : since ≤ reads.now)
    (hbefore : reads.now < since + 60000) (hdue : s.schedule.isDue org tier reads.now = true) :
    Sent org tier (s.tick reads).2 ∨
      pending (s.tick reads).1 org tier since < pending s org tier since := by
  obtain ⟨hready, hsends, hearlier⟩ := hserves
  obtain ⟨hkeeps, hturn, hsent⟩ := tick_fast hready
  have hcases : s.schedule.firstDue org reads.now = some tier ∨
      ∃ first ∈ earlierTiers org tier, s.schedule.firstDue org reads.now = some first :=
    find?_eq_or_earlier (p := fun t => s.schedule.isDue org t reads.now) h hdue
  rcases hcases with hfirst | ⟨first, hmem, hfirst⟩
  · exact .inl ⟨reads.now, hsent tier hfirst hsends⟩
  · right
    have hlast := hturn first hfirst (hearlier first hmem)
    -- The tier whose turn it was had none since, as no cadence is shorter than a minute.
    have hold : ((s.schedule.last org.id first).all fun l => decide (l < since)) = true := by
      have hfirstDue : s.schedule.isDue org first reads.now = true := by
        have := find?_some hfirst
        simpa using this
      have hmin : 60 ≤ org.tierCadence first := by
        have := (hband first).1
        cases first <;> simp only [MerakiOrg.cadenceBounds] at this <;> omega
      rw [isDue, dueWithin] at hfirstDue
      cases hl : s.schedule.last org.id first with
      | none => rfl
      | some l =>
        rw [hl] at hfirstDue
        simp only [all_some, decide_eq_true_eq] at hfirstDue
        exact decide_eq_true (turn_before hfirstDue hmin hbefore)
    have hnew : ((some reads.now : Option Instant).all fun l => decide (l < since)) = false := by
      simpa using hsince
    rw [pending, pending, ← countP_eq_length_filter, ← countP_eq_length_filter]
    refine countP_lt (fun t ht hlate => ?_) hmem hold ?_
    · by_cases hfirstT : t = first
      · rw [hfirstT]
        exact hold
      · have hfast := isFast_of_mem (mem_of_mem_earlier ht).1
        rwa [hkeeps t hfast fun heq => hfirstT (some.inj (heq.symm.trans hfirst))] at hlate
    · rw [hlast, hnew]

/-! ### Runs -/

/-- A run that serves a tier sends it, or keeps its clock. -/
theorem run_sent_or_keeps (h : tier ∈ fastTiers org) {ops : List SchedulerOp}
    (hserves : Along (Serves org tier) step s ops) :
    Sent org tier (emitAll step s ops).2 ∨
      (emitAll step s ops).1.schedule.last org.id tier = s.schedule.last org.id tier := by
  induction ops generalizing s with
  | nil => exact .inr rfl
  | cons op rest ih =>
    have hop : Sent org tier (s.step op).2 ∨
        (s.step op).1.schedule.last org.id tier = s.schedule.last org.id tier := by
      cases op with
      | tick reads => exact tick_sent_or_keeps h hserves.1
      | complete _ | acquireSync _ _ _ _ _ | extend _ _ _ | takeUnanswered _ => exact .inr rfl
    rcases hop with hsent | hkept
    · exact .inl (hsent.append_left _)
    · rcases ih hserves.2 with hsent | hrest
      · exact .inl (hsent.append_right _)
      · exact .inr (hrest.trans hkept)

/-- A tier that is due is sent before the ticks of a minute outnumber the earlier tiers that had no
turn. -/
theorem run_sent (hband : org.InBand) (h : tier ∈ fastTiers org) {ops : List SchedulerOp}
    (hserves : Along (Serves org tier) step s ops) {since : Nat}
    (htimes : ∀ t ∈ tickTimes ops, since ≤ t ∧ t < since + 60000)
    (hdue : ∀ t : Nat, since ≤ t → s.schedule.isDue org tier t = true)
    (hcount : pending s org tier since < (tickTimes ops).length) :
    Sent org tier (emitAll step s ops).2 := by
  induction ops generalizing s with
  | nil => simp [tickTimes] at hcount
  | cons op rest ih =>
    cases op with
    | tick reads =>
      have hnow := htimes reads.now (by simp [tickTimes])
      rcases tick_sent_or_keeps h hserves.1 with hsent | hkept
      · exact hsent.append_left _
      · rcases tick_sent_or_advances hband h hserves.1 hnow.1 hnow.2 (hdue _ hnow.1)
          with hsent | hadvances
        · exact hsent.append_left _
        · refine Sent.append_right (ih hserves.2 ?_ ?_ ?_) _
          · exact fun t ht => htimes t (by simpa [tickTimes] using Or.inr ht)
          · intro t ht
            have := hdue t ht
            show ((s.tick reads).1.schedule.last org.id tier).all _ = true
            rw [hkept]
            exact this
          · have hlength : (tickTimes (.tick reads :: rest)).length
                = (tickTimes rest).length + 1 := rfl
            exact Nat.lt_of_lt_of_le hadvances (Nat.le_of_lt_succ hcount)
    | complete _ | acquireSync _ _ _ _ _ | extend _ _ _ | takeUnanswered _ =>
      exact Sent.append_right (ih hserves.2 htimes hdue hcount) _

end MerakiScheduler

/-! ### The log of the turns -/

/-- The turn is a read of the SSIDs of the organization. -/
def Turn.isSsidOf (o : Uuid) (turn : Turn) : Bool :=
  decide (turn.org = o) && turn.work.isSsidRead

/-- The turn is one of the tier of the organization, and no read of the SSIDs. -/
def Turn.isRoundOf (o : Uuid) (tier : MerakiTier) (turn : Turn) : Bool :=
  decide (turn.org = o) && decide (turn.work.tier = tier) && !turn.work.isSsidRead

/-- When the last turn of a kind was. -/
def lastTurn (p : Turn → Bool) (log : List Turn) : Option Instant :=
  (log.filter p).getLast?.map Turn.time

theorem lastTurn_append (p : Turn → Bool) (log : List Turn) (turn : Turn) :
    lastTurn p (log ++ [turn]) = if p turn then some turn.time else lastTurn p log := by
  cases hp : p turn <;> simp [hp, lastTurn]

/-- The clocks of the schedule show the last turns of the log. -/
structure Logged (log : List Turn) (s : MerakiScheduler) : Prop where
  ssid : ∀ o, s.schedule.ssidStatusesAt o = lastTurn (Turn.isSsidOf o) log
  last : ∀ o tier, s.schedule.last o tier = lastTurn (Turn.isRoundOf o tier) log

namespace MerakiScheduler

variable {ops : List SchedulerOp} {log : List Turn} {s' : MerakiScheduler}

section

variable {s : MerakiScheduler} (h : Logged log s)

include h

theorem logged_of_schedule (hssid : s'.schedule.ssidStatusesAt = s.schedule.ssidStatusesAt)
    (hlast : s'.schedule.last = s.schedule.last) : Logged log s' :=
  ⟨fun o => by rw [hssid, h.ssid], fun o tier => by rw [hlast, h.last]⟩

theorem logged_dispatched {org : Uuid} {now : Instant} {sent : Bool}
    (hs' : s'.schedule = s.schedule.dispatched org work now) :
    Logged (log ++ [⟨org, work, now, sent⟩]) s' where
  ssid := by
    intro o
    rw [lastTurn_append, ← h.ssid, hs', dispatched]
    by_cases ho : org = o
    · subst ho
      cases hw : work.isSsidRead <;> simp [Turn.isSsidOf, hw]
    · cases hw : work.isSsidRead <;> simp [Turn.isSsidOf, hw, ho, Ne.symm ho]
  last := by
    intro o tier
    rw [lastTurn_append, ← h.last, hs', dispatched]
    by_cases ho : org = o
    · subst ho
      by_cases ht : work.tier = tier
      · subst ht
        cases hw : work.isSsidRead <;> simp [Turn.isRoundOf, hw]
      · cases hw : work.isSsidRead <;> simp [Turn.isRoundOf, hw, ht, Ne.symm ht]
    · cases hw : work.isSsidRead <;> simp [Turn.isRoundOf, hw, ho, Ne.symm ho]

/-- Every operation keeps the clocks and the log together. -/
theorem logged_step (op : SchedulerOp) : Logged (log ++ (s.step op).2) (s.step op).1 := by
  cases op with
  | tick reads =>
    refine tick_history (I := Logged) (fun _ _ _ h => logged_of_schedule h rfl rfl) ?_ log h
    intro org log s work h
    rcases attempt_cases reads org s work with ⟨hout, hs⟩ | ⟨⟨sent, hout⟩, hs⟩ <;> rw [hout]
    · rw [append_nil]
      exact logged_of_schedule h (by rw [hs]) (by rw [hs])
    · exact logged_dispatched h hs
  | complete _ | acquireSync _ _ _ _ _ | extend _ _ _ | takeUnanswered _ =>
    simp only [step, append_nil]
    exact logged_of_schedule h rfl rfl

end

theorem logged_run (ops : List SchedulerOp) :
    Logged (emitAll step new ops).2 (emitAll step new ops).1 := by
  have hnew : Logged [] new := ⟨fun _ => rfl, fun _ _ => rfl⟩
  have hrun := emitAll_history (I := Logged) step (l := ops)
    (fun log s op _ h => logged_step h op) hnew
  rwa [nil_append] at hrun

theorem tick_time {turn : Turn} (h : turn ∈ (s.tick reads).2) : turn.time = reads.now := by
  have hlog : ∀ turn ∈ [] ++ (s.tick reads).2, turn.time = reads.now := by
    refine tick_history (I := fun log _ => ∀ turn ∈ log, turn.time = reads.now)
      (fun _ _ _ h => h) (fun org log s work h turn hturn => ?_) [] (by simp)
    rcases mem_append.1 hturn with hturn | hturn
    · exact h turn hturn
    · rcases attempt_cases reads org s work with ⟨hout, -⟩ | ⟨⟨sent, hout⟩, -⟩
      · rw [hout] at hturn
        cases hturn
      · rw [hout, mem_singleton] at hturn
        rw [hturn]
  exact hlog turn (by simpa using h)

/-- The turns of a run are at its ticks. -/
theorem time_mem_tickTimes {turn : Turn} (h : turn ∈ (emitAll step s ops).2) :
    turn.time ∈ tickTimes ops := by
  induction ops generalizing s with
  | nil => cases h
  | cons op rest ih =>
    rw [emitAll_cons_snd, mem_append] at h
    rcases h with h | h
    · cases op with
      | tick reads => exact mem_cons.2 (.inl (tick_time h))
      | complete _ | acquireSync _ _ _ _ _ | extend _ _ _ | takeUnanswered _ =>
        cases h
    · have := ih h
      cases op with
      | tick reads => exact mem_cons.2 (.inr this)
      | complete _ | acquireSync _ _ _ _ _ | extend _ _ _ | takeUnanswered _ => exact this

/-- A clock shows the time of a tick. -/
theorem last_mem_tickTimes {o : Uuid} {l : Instant}
    (h : (emitAll step new ops).1.schedule.last o tier = some l) : l ∈ tickTimes ops := by
  rw [(logged_run ops).last, lastTurn, map_eq_some_iff] at h
  obtain ⟨turn, hturn, rfl⟩ := h
  exact time_mem_tickTimes (mem_filter.1 (mem_of_getLast? hturn)).1

end MerakiScheduler

/-! ### The fast lane -/

/-- Ticks come every 15 seconds, and less than five seconds late. -/
def EveryTick (times : List Instant) : Prop :=
  times.IsChain fun a b => a + 15000 ≤ b ∧ b < a + 20000

theorem EveryTick.pairwise {times : List Instant} (h : EveryTick times) :
    times.Pairwise (· < ·) := by
  refine List.IsChain.pairwise (List.IsChain.imp (fun a b hab => ?_) h)
  exact Nat.lt_of_lt_of_le (Nat.lt_add_of_pos_right (by omega)) hab.1

theorem within_minute {a b c d t : Nat} (hab : a + 15000 ≤ b ∧ b < a + 20000)
    (hbc : b + 15000 ≤ c ∧ c < b + 20000) (hcd : c + 15000 ≤ d ∧ d < c + 20000)
    (ht : t = a ∨ t = b ∨ t = c ∨ t = d) : a ≤ t ∧ t < a + 60000 := by
  omega

theorem due_after {turn first start t : Nat} (hturn : turn < first)
    (hcadence : first + cadence * 1000 ≤ start) (ht : start ≤ t) :
    cadence * 1000 ≤ t - turn + 0 := by
  omega

namespace MerakiScheduler

/-- Take an organization whose cadences are in their bounds, and a stretch of ticks from `first` on
in which the cadence of a fast tier passes and three more ticks follow. Suppose that in each tick of
the stretch the tier can be sent, its lane is free, and every tier that is looked at before it can
have its turn. Then the tier is sent in the stretch. -/
theorem fast_tier_served {org : MerakiOrg} (hband : org.InBand) {tier : MerakiTier}
    (h : tier ∈ fastTiers org) {past stretch : List SchedulerOp}
    (hclock : EveryTick (tickTimes (past ++ stretch)))
    (hserves : Along (Serves org tier) step (emitAll step new past).1 stretch)
    {first t₁ t₂ t₃ t₄ : Instant} {early : List Instant}
    (htimes : tickTimes stretch = first :: early ++ [t₁, t₂, t₃, t₄])
    (hcadence : first + org.tierCadence tier * 1000 ≤ t₁) :
    Sent org tier (emitAll step (emitAll step new past).1 stretch).2 := by
  rw [tickTimes, List.filterMap_append, ← tickTimes, ← tickTimes] at hclock
  obtain ⟨ops₁, ops₂, rfl, hfirst, hlast⟩ := List.filterMap_eq_append_iff.1 htimes
  rw [along_append] at hserves
  rw [emitAll_append]
  rcases run_sent_or_keeps h hserves.1 with hsent | hkept
  · exact hsent.append_left _
  refine Sent.append_right (run_sent hband h hserves.2 (?_ : ∀ t ∈ _, t₁ ≤ t ∧ _) ?_ ?_) _
  · have hfour : EveryTick [t₁, t₂, t₃, t₄] := by
      rw [htimes, ← List.append_assoc] at hclock
      exact hclock.right_of_append
    rw [EveryTick] at hfour
    simp only [List.isChain_cons_cons, List.isChain_singleton, and_true] at hfour
    intro t ht
    rw [tickTimes, hlast] at ht
    simp only [mem_cons, List.not_mem_nil, or_false] at ht
    exact within_minute hfour.1 hfour.2.1 hfour.2.2 ht
  · intro t ht
    rw [isDue, dueWithin, hkept]
    cases hl : (emitAll step new past).1.schedule.last org.id tier with
    | none => rfl
    | some l =>
      have hmem := last_mem_tickTimes hl
      have hbefore : l < first := by
        have hpair := hclock.pairwise
        rw [htimes, List.pairwise_append] at hpair
        exact hpair.2.2 l hmem first (by simp)
      exact decide_eq_true (due_after hbefore hcadence ht)
  · have hlength : (tickTimes ops₂).length = 4 := by
      rw [tickTimes, hlast]
      rfl
    have hpending : pending (emitAll step (emitAll step new past).1 ops₁).1 org tier t₁ ≤ 3 :=
      (List.length_filter_le _ _).trans (length_earlierTiers h)
    omega

/-! ### An organization with two tiers -/

/-- An organization with the tiers of these names, each as often as its bounds allow. -/
def orgWith (tiers : List String) : MerakiOrg where
  id := 1
  credentialId := 1
  availabilitySecs := 60
  uplinkSecs := 60
  trafficSecs := 300
  inventorySecs := 60
  switchPortsSecs := 300
  wirelessSecs := 300
  enabledTiers := tiers

theorem orgWith_inBand (tiers : List String) : (orgWith tiers).InBand := by
  intro tier
  cases tier <;> simp [orgWith, MerakiOrg.cadenceBounds, MerakiOrg.tierCadence]

/-- An organization with the tiers availability and uplink. -/
def uplinkOrg : MerakiOrg := orgWith ["availability", "uplink"]

/-- A tick in which every read succeeds. -/
def readsAt (org : MerakiOrg) (publishes : MerakiWork → Bool) (now : Instant) : TickReads where
  pollingEnabled := true
  neighborEvery := none
  orgs := some [org]
  now := now
  caps := .full
  deviceRefs := fun _ _ => some ["Q2XX"]
  monitoredNetworks := fun _ => some ["N_1"]
  key := fun _ => some "key"
  jobId := fun _ _ => 7
  publishes := fun _ work => publishes work

variable {flight : Flight} {now : Instant} {ports read : Nat}

section

variable {org : MerakiOrg} {publishes : MerakiWork → Bool}

theorem readsAt_ready (hfree : s.inflight.isInflight org.id .fast now = false) :
    Ready (readsAt org publishes now) org s where
  enabled := rfl
  listed := ⟨[org], rfl, mem_singleton.2 rfl, by simp⟩
  caps := rfl
  free := hfree

theorem readsAt_sends (h : publishes work = true) :
    Sends (readsAt org publishes now) org work where
  devices := ⟨_, _, rfl⟩
  networks := ⟨_, _, rfl⟩
  key := rfl
  publishes := h

/-- Ticks at these times. Every collect is answered before the next tick. -/
def answeredRun (times : List Instant) : List SchedulerOp :=
  times.flatMap fun t =>
    [.tick (readsAt uplinkOrg (fun _ => true) t), .complete 7]

/-- A lane is held only by the job 7. -/
def OnlySeven (s : MerakiScheduler) : Prop :=
  ∀ o lane f, s.inflight.flights o lane = some f → f.job = 7

theorem onlySeven_tick (h : OnlySeven s) : OnlySeven (s.tick (readsAt org publishes now)).1 := by
  refine tick_history (I := fun _ => OnlySeven) (fun _ _ _ h => h) ?_ [] h
  intro org' _ s' work h' o lane f hf
  rcases attempt_flight hf with hbefore | ⟨-, hjob⟩
  · exact h' o lane f hbefore
  · exact hjob

end

theorem answeredRun_serves (times : List Instant) (h : ∀ o lane, s.inflight.flights o lane = none) :
    Along (Serves uplinkOrg .uplink) step s (answeredRun times) := by
  induction times generalizing s with
  | nil => trivial
  | cons t rest ih =>
    have hfree := isInflight_of_none (h uplinkOrg.id .fast) t
    have hseven : OnlySeven s := fun o lane f hf => absurd hf (by simp [h])
    refine ⟨⟨readsAt_ready hfree, readsAt_sends rfl, fun _ _ => .inr (readsAt_sends rfl)⟩,
      trivial, ih fun o lane => ?_⟩
    refine filter_eq_none_iff.2 fun f hf => ?_
    simpa using onlySeven_tick hseven o lane f hf

/-- Uplink is sent within its cadence and four ticks. -/
theorem uplink_served :
    EveryTick (tickTimes ([] ++
        answeredRun [0, 15000, 30000, 45000, 60000, 75000, 90000, 105000])) ∧
      Sent uplinkOrg .uplink (emitAll step (emitAll step new []).1
        (answeredRun [0, 15000, 30000, 45000, 60000, 75000, 90000, 105000])).2 := by
  have hclock : EveryTick (tickTimes ([] ++
      answeredRun [0, 15000, 30000, 45000, 60000, 75000, 90000, 105000])) := by
    rw [EveryTick]
    decide
  have htimes : tickTimes (answeredRun [0, 15000, 30000, 45000, 60000, 75000, 90000, 105000])
      = 0 :: [15000, 30000, 45000] ++ [60000, 75000, 90000, 105000] := rfl
  exact ⟨hclock, fast_tier_served (orgWith_inBand _) (by decide) hclock
    (answeredRun_serves _ fun _ _ => rfl) htimes (by decide)⟩

/-! ### A tier that cannot be sent -/

/-- Publishing fails for availability. -/
def stuckReads (now : Instant) : TickReads :=
  readsAt uplinkOrg (fun work => decide (work.tier ≠ .availability)) now

/-- A collect that cannot be published keeps the schedule and no lane. -/
theorem attempt_unpublished (hdevices : ∃ d ds, reads.deviceRefs org.id work.tier = some (d :: ds))
    (hpublishes : reads.publishes org.id work = false) :
    (attempt reads org s work).2 = [] ∧ (attempt reads org s work).1.schedule = s.schedule ∧
      ∀ o lane, s.inflight.flights o lane = none →
        (attempt reads org s work).1.inflight.flights o lane = none := by
  refine ⟨?_, ?_, fun o lane hfree => ?_⟩
  rotate_left 2
  · rcases attempt_inflight reads org s work with heq | ⟨i, htake, heq⟩ <;> rw [heq]
    · exact hfree
    · rw [hpublishes]
      refine filter_eq_none_iff.2 fun f hf => ?_
      rw [take_flights htake, hfree] at hf
      split at hf
      · simp [← some.inj hf]
      · cases hf
  all_goals
    obtain ⟨d, ds, hdevices⟩ := hdevices
    simp only [attempt, hdevices, hpublishes, Bool.false_eq_true, if_false]
    split
    · split <;> rfl
    · rfl

/-- Availability never had a turn, and no lane is held. -/
structure Stuck (s : MerakiScheduler) : Prop where
  last : s.schedule.last 1 .availability = none
  free : ∀ lane, s.inflight.flights 1 lane = none

theorem stuck_tick (h : Stuck s) (now : Instant) :
    (s.tick (stuckReads now)).2 = [] ∧ Stuck (s.tick (stuckReads now)).1 := by
  have hfree : ∀ lane t, s.inflight.isInflight 1 lane t = false :=
    fun lane => isInflight_of_none (h.free lane)
  set s₀ : MerakiScheduler := { s with schedule := s.schedule.setNeighborInterval none } with hs₀
  have hplan : (s₀.planFor uplinkOrg now .full).works = [.plain .availability] := by
    have htiers : (uplinkOrg.activeTiers.filter fun t =>
        poolCanRun t .full) = [.availability, .uplink] := by decide
    have hdue : s₀.schedule.isDue uplinkOrg .availability now = true := by
      show ((s.schedule.last 1 .availability).all _) = true
      rw [h.last]
      rfl
    simp only [planFor, plan, htiers, LanePlan.works, slowWork, fastWork, find?_cons, hdue]
    simp [uplinkOrg, orgWith, hs₀, hfree]
    exact ⟨.availability, rfl, rfl⟩
  have htick : s.tick (stuckReads now) = emitAll (attempt (stuckReads now)
      uplinkOrg) s₀ [.plain .availability] := by
    rw [← hplan]
    show (emitAll (tickOrg (stuckReads now)) s₀ [uplinkOrg]) = _
    rw [emitAll_singleton]
    rfl
  rw [htick, emitAll_singleton]
  obtain ⟨hout, hschedule, hflights⟩ :
      (attempt (stuckReads now) uplinkOrg s₀ (.plain .availability)).2
        = [] ∧ _ := attempt_unpublished ⟨_, _, rfl⟩ rfl
  exact ⟨hout, by rw [hschedule]; exact h.last, fun lane => hflights 1 lane (h.free lane)⟩

/-- A run of `n` ticks in which publishing fails for availability. -/
def stuckRun (n : Nat) : List SchedulerOp :=
  (range n).map fun k => .tick (stuckReads (15000 * k))

/-- The conditions on the ticks without the one on the tiers before. -/
def WouldServe (org : MerakiOrg) (tier : MerakiTier) (s : MerakiScheduler) : SchedulerOp → Prop
  | .tick reads => Ready reads org s ∧ Sends reads org (.plain tier)
  | _ => True

theorem stuck_run (times : List Instant) (h : Stuck s) :
    Along (WouldServe uplinkOrg .uplink) step s
        (times.map fun t => .tick (stuckReads t)) ∧
      (emitAll step s (times.map fun t => .tick (stuckReads t))).2 = [] := by
  induction times generalizing s with
  | nil => exact ⟨trivial, rfl⟩
  | cons t rest ih =>
    obtain ⟨hout, hnext⟩ := stuck_tick h t
    obtain ⟨hserve, hrest⟩ := ih hnext
    have hfree := isInflight_of_none (h.free .fast) t
    refine ⟨⟨⟨readsAt_ready hfree, readsAt_sends rfl⟩, hserve⟩, ?_⟩
    exact append_eq_nil_iff.2 ⟨hout, hrest⟩

/-- Publishing fails for availability in every tick. Uplink could be sent in every tick, and its
lane is free, but it is never sent, however long the run is. -/
theorem failing_tier_starves_uplink :
    uplinkOrg.InBand ∧
      .uplink ∈ fastTiers uplinkOrg ∧
      ∀ n, EveryTick (tickTimes (stuckRun n)) ∧
        Along (WouldServe uplinkOrg .uplink) step new (stuckRun n) ∧
        ¬ Sent uplinkOrg .uplink (emitAll step new (stuckRun n)).2 := by
  refine ⟨orgWith_inBand _, by decide, fun n => ?_⟩
  have hnew : Stuck new := ⟨rfl, fun _ => rfl⟩
  obtain ⟨hserve, hout⟩ := stuck_run ((range n).map (15000 * ·)) hnew
  rw [List.map_map] at hserve hout
  refine ⟨?_, hserve, ?_⟩
  · have htimes : tickTimes (stuckRun n) = (range n).map (15000 * ·) := by
      rw [tickTimes, stuckRun, List.filterMap_map]
      exact List.filterMap_eq_map ▸ rfl
    rw [htimes, EveryTick, List.isChain_iff_getElem]
    intro i hi
    simp only [List.getElem_map, List.getElem_range]
    have hnext : ∀ k : Nat, 15000 * k + 15000 ≤ 15000 * (k + 1) ∧
        15000 * (k + 1) < 15000 * k + 20000 := fun k => by omega
    exact hnext i
  · rintro ⟨time, htime⟩
    have hmem : _ ∈ (emitAll step new (stuckRun n)).2 := htime
    rw [show (emitAll step new (stuckRun n)).2 = [] from hout] at hmem
    cases hmem

/-! ### The slow lane -/

/-- In any run, take a moment at which the slow lane of an organization with the wireless tier is
free, and which is at least `ssidStatusesEvery + ssidDefer` after the last read of its SSIDs. The
plan is the read of the SSIDs, unless the switch ports are due then. -/
theorem ssid_read_goes_when_ports_not_due {org : MerakiOrg}
    (hwireless : .wireless ∈ org.activeTiers) (ops : List SchedulerOp) {now : Instant}
    (hfree : (emitAll step new ops).1.inflight.isInflight org.id .slow now = false)
    (hwaited : ∀ t, lastTurn (Turn.isSsidOf org.id) (emitAll step new ops).2 = some t →
      ssidStatusesEvery + ssidDefer ≤ now - t)
    (hports : ∃ t, lastTurn (Turn.isRoundOf org.id .switchPorts) (emitAll step new ops).2 = some t ∧
      now - t < org.tierCadence .switchPorts * 1000) :
    ((emitAll step new ops).1.planFor org now .full).slow = some .ssidRead := by
  have hlogged := logged_run ops
  have htiers : (org.activeTiers.filter fun t => poolCanRun t .full) = org.activeTiers := by
    simp [poolCanRun_full]
  have hnotDue : (emitAll step new ops).1.schedule.isDue org .switchPorts now = false := by
    obtain ⟨t, ht, hlate⟩ := hports
    rw [isDue, dueWithin, hlogged.last, ht]
    simpa using hlate
  have hread : ∀ every, every ≤ ssidStatusesEvery + ssidDefer →
      (((emitAll step new ops).1.schedule.ssidStatusesAt org.id).all fun t =>
        decide (every ≤ now - t)) = true := by
    intro every hevery
    rw [hlogged.ssid]
    cases hlast : lastTurn (Turn.isSsidOf org.id) (emitAll step new ops).2 with
    | none => rfl
    | some t => exact decide_eq_true (hevery.trans (hwaited t hlast))
  have hdue : ssidStatusesDue ((emitAll step new ops).1.schedule.ssidStatusesAt org.id) now
      = true := hread _ (Nat.le_add_right _ _)
  simp only [planFor, plan, hfree, htiers, slowWork, hnotDue,
    Bool.and_false, Bool.false_eq_true, if_false, Bool.not_false, if_true, hwireless,
    not_true_eq_false, hdue, Bool.not_true, hread _ le_rfl, Bool.or_true]

/-! ### Switch ports that leave no room -/

/-- The organization of the runs below. -/
def portsOrg : MerakiOrg := orgWith ["switch_ports", "wireless"]

/-- What a tick of the runs below reads. Every collect has a job of its own. -/
def portsReads (now : Nat) : TickReads :=
  { readsAt portsOrg (fun _ => true) now with
    jobId := fun _ lane => if lane = .slow then now else now + 1 }

/-- The switch ports were collected at `ports` and the SSIDs read at `read`. -/
structure SlowClocks (read ports : Nat) (s : MerakiScheduler) : Prop where
  ports : s.schedule.last 1 .switchPorts = some ports
  ssid : s.schedule.ssidStatusesAt 1 = some read

/-- A turn of a fast tier moves no clock of the slow lane. -/
theorem attempt_plain_slowClocks (h : SlowClocks read ports s) (reads : TickReads) (org : MerakiOrg)
    (htier : tier.isFast = true) : SlowClocks read ports (attempt reads org s (.plain tier)).1 := by
  have hne : MerakiTier.switchPorts ≠ tier := by
    rintro rfl
    exact absurd htier (by decide)
  rcases attempt_cases reads org s (.plain tier) with ⟨-, heq⟩ | ⟨-, heq⟩
  · exact ⟨by rw [heq]; exact h.ports, by rw [heq]; exact h.ssid⟩
  · rw [dispatched, if_neg (by simp [plain_not_ssidRead])] at heq
    refine ⟨?_, by rw [heq]; exact h.ssid⟩
    rw [heq, ← h.ports]
    by_cases ho : 1 = org.id
    · simp only [ho, update_self, plain, update_of_ne hne]
    · simp only [update_of_ne ho]

/-- A published collect leaves the other lane alone. -/
theorem attempt_flights (hpublishes : reads.publishes org.id work = true) (s : MerakiScheduler)
    (o : Uuid) {lane : MerakiLane} (hlane : lane ≠ work.lane) :
    (attempt reads org s work).1.inflight.flights o lane = s.inflight.flights o lane := by
  rcases attempt_inflight reads org s work with heq | ⟨i, htake, heq⟩ <;> rw [heq]
  rw [if_pos hpublishes, take_flights htake, if_neg fun hown => hlane hown.2]

/-- A job holds the slow lane until `deadline`. -/
structure Held (read ports : Nat) (flight : Flight) (s : MerakiScheduler) : Prop where
  clocks : SlowClocks read ports s
  slow : s.inflight.flights 1 .slow = some flight

/-- What the fast lane sends leaves the slow lane as it is. -/
theorem fast_held {s' : MerakiScheduler} (h : Held read ports flight s) (now : Nat) :
    Held read ports flight (emitAll (attempt (portsReads now) portsOrg) s
      (s'.planFor portsOrg now .full).fast.toList).1 := by
  refine emitAll_invariant (P := Held read ports flight) _ (fun t work hwork ht => ?_) h
  have hfast : (s'.planFor portsOrg now .full).fast = some work := by simpa using hwork
  simp only [planFor, plan, fastWork] at hfast
  split at hfast
  · obtain ⟨tier, htier, rfl⟩ := map_eq_some_iff.1 hfast
    have hfound := find?_some htier
    have hisFast : tier.isFast = true := (Bool.and_eq_true_iff.1 hfound).1
    have hlane : MerakiLane.slow ≠ (plain tier).lane := by
      rw [show (plain tier).lane = .fast from of_decide_eq_true hisFast]
      decide
    refine ⟨attempt_plain_slowClocks ht.clocks _ _ hisFast, ?_⟩
    rw [attempt_flights rfl t 1 hlane]
    exact ht.slow
  · cases hfast

/-- A tick of the run is the attempts of the one organization. -/
theorem portsTick (s : MerakiScheduler) (now : Nat) :
    (s.tick (portsReads now)).1
      = (tickOrg (portsReads now) { s with schedule := s.schedule.setNeighborInterval none }
          portsOrg).1 := by
  show (emitAll (tickOrg (portsReads now)) _ [portsOrg]).1 = _
  rfl

/-- While the slow lane is held, a tick changes nothing about it. -/
theorem held_tick (h : Held read ports flight s) {now : Nat} (hnow : now < flight.deadline) :
    Held read ports flight (s.step (.tick (portsReads now))).1 := by
  set s₀ : MerakiScheduler := { s with schedule := s.schedule.setNeighborInterval none } with hs₀
  have h₀ : Held read ports flight s₀ := ⟨⟨h.clocks.ports, h.clocks.ssid⟩, h.slow⟩
  have hslow : (s₀.planFor portsOrg now .full).slow = none := by
    have hheld : s₀.inflight.isInflight portsOrg.id .slow now = true := by
      rw [isInflight, show portsOrg.id = 1 from rfl, h₀.slow]
      exact decide_eq_true hnow
    simp only [planFor, plan, hheld, Bool.not_true, Bool.false_eq_true, if_false]
  rw [step, portsTick, tickOrg, LanePlan.works]
  rw [show (s₀.planFor portsOrg (portsReads now).now (portsReads now).caps).slow = none from hslow]
  exact fast_held h₀ now

section

variable {now : Nat} {s : MerakiScheduler} (h : SlowClocks read ports s)
  (hfree : s.inflight.flights 1 .slow = none) (hdue : 300 * 1000 ≤ now - ports)

include h hfree hdue

/-- Five minutes after the last collect of the switch ports they go first again. -/
theorem ports_plan : ∃ slow, (s.planFor portsOrg now .full).slow = some ⟨.switchPorts, slow⟩ := by
  have htiers : (portsOrg.activeTiers.filter fun t => poolCanRun t .full)
      = [.wireless, .switchPorts] := by decide
  have hisDue : s.schedule.isDue portsOrg .switchPorts now = true := by
    rw [isDue, dueWithin, show portsOrg.id = 1 from rfl, h.ports,
      show portsOrg.tierCadence .switchPorts = 300 from rfl]
    exact decide_eq_true hdue
  have hlane : s.inflight.isInflight portsOrg.id .slow now = false :=
    isInflight_of_none hfree now
  simp only [planFor, plan, hlane, htiers, slowWork, hisDue]
  exact ⟨_, rfl⟩

/-- The switch ports are sent then, and hold the lane. -/
theorem ports_tick : Held read now ⟨now, now + lease⟩ (s.step (.tick (portsReads now))).1 := by
  set s₀ : MerakiScheduler := { s with schedule := s.schedule.setNeighborInterval none } with hs₀
  have h₀ : SlowClocks read ports s₀ := ⟨h.ports, h.ssid⟩
  obtain ⟨slow, hplan⟩ := ports_plan h₀ hfree hdue
  rw [step, portsTick, tickOrg, LanePlan.works]
  rw [show (s₀.planFor portsOrg (portsReads now).now (portsReads now).caps).slow
    = some ⟨.switchPorts, slow⟩ from hplan, toList_some, emitAll_append]
  refine fast_held ?_ _
  rw [emitAll_singleton]
  have hlane : s₀.inflight.isInflight 1 .slow now = false :=
    isInflight_of_none hfree now
  have hattempt : (attempt (portsReads now) portsOrg s₀ ⟨.switchPorts, slow⟩).1
      = ⟨s₀.schedule.dispatched 1 ⟨.switchPorts, slow⟩ now,
        ⟨update s₀.inflight.flights 1 (update (s₀.inflight.flights 1) .slow
          (some ⟨now, now + lease⟩))⟩⟩ := by
    have htake : s₀.inflight.take 1 .slow now lease now
        = some ⟨update s₀.inflight.flights 1 (update (s₀.inflight.flights 1) .slow
          (some ⟨now, now + lease⟩))⟩ := by
      rw [MerakiInflight.take, if_neg (by rw [hlane]; decide)]
    simp [attempt, portsReads, readsAt, networksToCollect, lane,
      show portsOrg.id = 1 from rfl, show of .switchPorts slow = .slow from rfl, htake]
  rw [hattempt]
  refine ⟨⟨?_, h₀.ssid⟩, ?_⟩
  · simp [dispatched, isSsidRead]
  · simp

end

/-- Ticks while the slow lane is held. -/
theorem held_ticks {times : List Nat} (hbefore : ∀ t ∈ times, t < flight.deadline)
    (h : Held read ports flight s) :
    Held read ports flight
      (emitAll step s (times.map fun t => SchedulerOp.tick (portsReads t))).1 := by
  refine emitAll_invariant (P := Held read ports flight) _ (fun s' op hop h' => ?_) h
  obtain ⟨t, ht, rfl⟩ := mem_map.1 hop
  exact held_tick h' (hbefore t ht)

/-- The answer frees the slow lane. -/
theorem held_complete {job deadline : Nat} (h : Held read ports ⟨job, deadline⟩ s) :
    SlowClocks read ports (s.step (.complete job)).1 ∧
      (s.step (.complete job)).1.inflight.flights 1 .slow = none := by
  refine ⟨⟨h.clocks.ports, h.clocks.ssid⟩, ?_⟩
  simp [step, complete, h.slow]

/-- A collect of the switch ports that takes its whole five minutes: it is answered before the tick
at which they are due again. -/
def longCollect (t : Nat) : List SchedulerOp :=
  .tick (portsReads t) ::
    (((range 19).map fun k => t + 15000 * (k + 1)).map fun u => .tick (portsReads u)) ++
    [.complete t]

theorem longCollect_state {t : Nat} (h : SlowClocks read ports s)
    (hfree : s.inflight.flights 1 .slow = none) (hdue : 300 * 1000 ≤ t - ports) :
    SlowClocks read t (emitAll step s (longCollect t)).1 ∧
      (emitAll step s (longCollect t)).1.inflight.flights 1 .slow = none := by
  have hports := ports_tick h hfree hdue
  have hbefore : ∀ u ∈ (range 19).map fun k => t + 15000 * (k + 1), u < t + lease := by
    intro u hu
    obtain ⟨k, hk, rfl⟩ := mem_map.1 hu
    have hk : k < 19 := mem_range.1 hk
    rw [lease]
    omega
  have hanswered := held_complete (held_ticks hbefore hports)
  rw [longCollect, emitAll_append_fst, emitAll_singleton, emitAll_cons_fst]
  exact hanswered

/-- The switch ports are collected at 0 and the SSIDs are read at 15 s. That read is answered before
the tick at 300 s. From then on every collect of the switch ports takes five minutes. -/
def waitRun : Nat → List SchedulerOp
  | 0 => [.tick (portsReads 0), .complete 0, .tick (portsReads 15000)] ++
      (((range 18).map fun k => 15000 * (k + 2)).map fun t => .tick (portsReads t)) ++
      [.complete 15000]
  | n + 1 => waitRun n ++ longCollect (300000 * (n + 1))

theorem waitRun_state (n : Nat) :
    SlowClocks 15000 (300000 * n) (emitAll step new (waitRun n)).1 ∧
      (emitAll step new (waitRun n)).1.inflight.flights 1 .slow = none := by
  induction n with
  | zero =>
    have hread : Held 15000 0 ⟨15000, 315000⟩ (emitAll step new
        [.tick (portsReads 0), .complete 0, .tick (portsReads 15000)]).1 :=
      ⟨⟨by decide +kernel, by decide +kernel⟩, by decide +kernel⟩
    have hbefore : ∀ t ∈ (range 18).map fun k => 15000 * (k + 2), t < 315000 := by decide
    have hanswered := held_complete (held_ticks hbefore hread)
    exact hanswered
  | succ n ih =>
    rw [waitRun, emitAll_append_fst]
    exact longCollect_state ih.1 ih.2 (by omega)

/-- In the run above the slow lane is free at every fifth minute. Once the SSIDs were not read for
`ssidStatusesEvery + ssidDefer`, it sends the switch ports all the same, however long the run is. -/
theorem busy_ports_starve_ssid_read :
    .wireless ∈ portsOrg.activeTiers ∧ .switchPorts ∈ portsOrg.activeTiers ∧ portsOrg.InBand ∧
      ∀ n, 5 ≤ n →
        (emitAll step new (waitRun n)).1.inflight.isInflight 1 .slow (300000 * (n + 1)) = false ∧
        lastTurn (Turn.isSsidOf 1) (emitAll step new (waitRun n)).2 = some 15000 ∧
        ssidStatusesEvery + ssidDefer ≤ 300000 * (n + 1) - 15000 ∧
        ∃ slow, ((emitAll step new (waitRun n)).1.planFor portsOrg (300000 * (n + 1)) .full).slow
          = some ⟨.switchPorts, slow⟩ := by
  refine ⟨by decide, by decide, orgWith_inBand _, fun n hn => ?_⟩
  obtain ⟨hclocks, hfree⟩ := waitRun_state n
  refine ⟨isInflight_of_none hfree _, ?_, ?_, ports_plan hclocks hfree (by omega)⟩
  · rw [← (logged_run (waitRun n)).ssid]
    exact hclocks.ssid
  · show 1200000 + 450000 ≤ _
    omega

/-- The switch ports are collected at 0 and at 1700 s, and the SSIDs are read at 15 s. Then polling
was off for a while. -/
def pausedRun : List SchedulerOp :=
  [.tick (portsReads 0), .complete 0, .tick (portsReads 15000), .complete 15000,
    .tick (portsReads 1700000), .complete 1700000]

/-- At the next tick the SSIDs are read. -/
theorem ssid_read_goes_after_ports :
    (emitAll step new pausedRun).1.inflight.isInflight 1 .slow 1715000 = false ∧
      ((emitAll step new pausedRun).1.planFor portsOrg 1715000 .full).slow = some .ssidRead := by
  have hfree : (emitAll step new pausedRun).1.inflight.isInflight 1 .slow 1715000 = false := by
    decide +kernel
  have hread : lastTurn (Turn.isSsidOf 1) (emitAll step new pausedRun).2 = some 15000 := by
    decide +kernel
  have hports : lastTurn (Turn.isRoundOf 1 .switchPorts) (emitAll step new pausedRun).2
      = some 1700000 := by decide +kernel
  refine ⟨hfree, ssid_read_goes_when_ports_not_due (by decide) pausedRun hfree ?_
    ⟨1700000, hports, by decide⟩⟩
  intro t ht
  have heq : 15000 = t := Option.some.inj (hread.symm.trans ht)
  rw [← heq]
  decide

end MerakiScheduler

end Yagra.Meraki
