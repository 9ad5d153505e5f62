import Mathlib.Data.List.Nodup
import Yagra.Meraki.Schedule

/-!
# `Yagra.Proofs.CollectOutcomes`: every collect is answered, or reported unanswered, once

`collects_accounted` is about any run of the operations, in which each flight has a job of its own.
What was taken is what is held, was answered or has lapsed; and what was handed over, with what is
queued, is what lapsed and was a collect. Both are equal as multisets, so nothing is lost and
nothing counted twice. `lanes_step` says that the lanes the schedule reads are these.

The instants of a run may go back: no step compares two of them.
-/

set_option autoImplicit false

namespace Yagra.Meraki.CollectInflight

open Lib HeldFlight List

/-- What an answer says of a flight: its job, whose it was and what it collected. -/
structure Ticket where
  org : Uuid
  job : Uuid
  tier : Option MerakiTier
deriving DecidableEq

/-- The ticket of a flight. -/
def ticket (f : HeldFlight) : Ticket := ⟨f.org, f.job, f.tier⟩

/-- What the health record is told of it. -/
def Ticket.collect (t : Ticket) : Option (Uuid × MerakiTier) := t.tier.map fun tier => (t.org, tier)

/-- What a run tells of the flights. -/
inductive Event where
  | taken (t : Ticket)
  | answered (t : Ticket)
  | lapsed (t : Ticket)
  | handed (collect : Uuid × MerakiTier)

/-- An operation on the lanes. -/
inductive Op where
  /-- A collect with its tier, or a sync. -/
  | acquire (org : Uuid) (lane : MerakiLane) (job : Uuid) (tier : Option MerakiTier) (lease : Nat)
      (now : Instant)
  | extend (job : Uuid) (lease : Nat) (now : Instant)
  | complete (job : Uuid)
  | takeUnanswered (now : Instant)

/-- The job of an acquire. -/
def Op.takes : Op → Option Uuid
  | .acquire _ _ job _ _ _ => some job
  | _ => none

/-- One operation. What is answered is what `complete` answers. -/
def step (i : CollectInflight) : Op → CollectInflight × List Event
  | .acquire org lane job tier lease now =>
    match i.take org lane job tier lease now with
    | some i' =>
      (i', (i.get (org, lane)).toList.map (fun f => .lapsed (ticket f))
        ++ [.taken ⟨org, job, tier⟩])
    | none => (i, [])
  | .extend job lease now => (i.extend job lease now, [])
  | .complete job =>
    ((i.complete job).1, (i.complete job).2.toList.map fun a => .answered ⟨a.1, job, a.2⟩)
  | .takeUnanswered now =>
    ((i.takeUnanswered now).1, (i.lapsed now).map (fun f => .lapsed (ticket f))
      ++ (i.takeUnanswered now).2.map .handed)

section
variable (log : List Event)

/-- The flights that were taken. -/
def takenIn : List Ticket := log.filterMap fun | .taken t => some t | _ => none
/-- The flights that were answered. -/
def answeredIn : List Ticket := log.filterMap fun | .answered t => some t | _ => none
/-- The flights whose lease ran out. -/
def lapsedIn : List Ticket := log.filterMap fun | .lapsed t => some t | _ => none
/-- The collects that were handed over. -/
def handedIn : List (Uuid × MerakiTier) := log.filterMap fun | .handed c => some c | _ => none

end

/-- What was taken is accounted for, and so is what lapsed. -/
structure Accounted (log : List Event) (i : CollectInflight) : Prop where
  lanes : (i.flights.map key).Nodup
  flights : ∀ t, (takenIn log).count t
    = (i.flights.map ticket).count t + (answeredIn log).count t + (lapsedIn log).count t
  collects : ∀ c, ((lapsedIn log).filterMap Ticket.collect).count c
    = (handedIn log).count c + i.unanswered.count c

section
variable {i i' : CollectInflight} {log : List Event} {f : HeldFlight}

theorem count_remove (h : (i.flights.map key).Nodup) (hf : f ∈ i.flights) (t : Ticket) :
    (i.flights.map ticket).count t
      = ((i.remove f.key).map ticket).count t + [ticket f].count t := by
  have hsplit := (filter_append_perm (fun g : HeldFlight => decide (g.key = f.key)) i.flights).map
    ticket
  rw [filter_key_eq_singleton h hf] at hsplit
  have hremove : i.flights.filter (fun g => !decide (g.key = f.key)) = i.remove f.key := by
    simp [remove]
  rw [← hsplit.count_eq, hremove, map_append, count_append, Nat.add_comm]
  rfl

theorem nodup_remove (h : (i.flights.map key).Nodup) (key : Uuid × MerakiLane) :
    ((i.remove key).map HeldFlight.key).Nodup :=
  h.sublist (filter_sublist.map _)

theorem get_mem {key : Uuid × MerakiLane} (h : i.get key = some f) : f ∈ i.flights ∧ f.key = key :=
  ⟨mem_of_find?_eq_some h, by simpa using find?_some h⟩

theorem remove_of_get_none {key : Uuid × MerakiLane} (h : i.get key = none) :
    i.remove key = i.flights :=
  filter_eq_self.2 fun f hf => by simpa using find?_eq_none.1 h f hf

/-- When a lane can be taken, and what is left then. -/
theorem take_cases (i : CollectInflight) (org : Uuid) (lane : MerakiLane) (job : Uuid)
    (tier : Option MerakiTier) (lease : Nat) (now : Instant) :
    (i.take org lane job tier lease now = none ∧
      ∃ f ∈ i.flights, f.key = (org, lane) ∧ now < f.deadline) ∨
    (∀ f, i.get (org, lane) = some f → f.deadline ≤ now) ∧
      i.take org lane job tier lease now
        = some ⟨i.remove (org, lane) ++ [⟨org, lane, job, tier, now + lease⟩],
            i.unanswered ++ (i.get (org, lane)).toList.filterMap collect⟩ := by
  unfold take
  cases hget : i.get (org, lane) with
  | none => exact .inr ⟨by simp, by simp⟩
  | some f =>
    by_cases hlease : now < f.deadline
    · exact .inl ⟨by simp [hlease], f, (get_mem hget).1, (get_mem hget).2, hlease⟩
    · refine .inr ⟨fun g hg => Option.some.inj hg ▸ Nat.le_of_not_lt hlease, ?_⟩
      cases hcollect : f.collect <;> simp [hlease, hcollect]

section

variable (h : Accounted log i)

include h

theorem Accounted.acquire (org : Uuid) (lane : MerakiLane) (job : Uuid) (tier : Option MerakiTier)
    (lease : Nat) (now : Instant) :
    Accounted (log ++ (i.step (.acquire org lane job tier lease now)).2)
      (i.step (.acquire org lane job tier lease now)).1 := by
  rw [step]
  rcases i.take_cases org lane job tier lease now with ⟨htake, -⟩ | ⟨-, htake⟩
  · simpa [htake] using h
  rw [htake]
  have hflights := h.flights
  have hcollects := h.collects
  refine ⟨?_, fun t => ?_, fun c => ?_⟩
  · rw [map_append, nodup_append]
    refine ⟨nodup_remove h.lanes _, by simp, ?_⟩
    simp only [remove, mem_map, mem_filter]
    grind [key]
  · cases hget : i.get (org, lane) with
    | none =>
      simp [takenIn, answeredIn, lapsedIn, remove_of_get_none hget] at hflights ⊢
      grind [ticket]
    | some f =>
      obtain ⟨hmem, hkey⟩ := get_mem hget
      have hremove := count_remove h.lanes hmem t
      simp [takenIn, answeredIn, lapsedIn] at hflights ⊢
      grind [ticket]
  · cases hget : i.get (org, lane) with
    | none => simpa [lapsedIn, handedIn] using hcollects c
    | some f =>
      have hticket : (ticket f).collect = f.collect := rfl
      cases hcollect : f.collect
      · simp_all [lapsedIn, handedIn]
      · simp_all [lapsedIn, handedIn]
        omega

theorem Accounted.extend (job : Uuid) (lease : Nat) (now : Instant) :
    Accounted log (i.extend job lease now) := by
  have htickets : (i.extend job lease now).flights.map ticket = i.flights.map ticket := by
    simp only [CollectInflight.extend, map_map]
    refine map_congr_left fun f _ => ?_
    simp only [Function.comp]
    split <;> rfl
  have hkeys : (i.extend job lease now).flights.map key = i.flights.map key := by
    simp only [CollectInflight.extend, map_map]
    refine map_congr_left fun f _ => ?_
    simp only [Function.comp]
    split <;> rfl
  exact ⟨hkeys ▸ h.lanes, htickets ▸ h.flights, h.collects⟩

theorem Accounted.complete (job : Uuid) :
    Accounted (log ++ (i.step (.complete job)).2) (i.step (.complete job)).1 := by
  have hflights := h.flights
  rw [step, CollectInflight.complete]
  cases hheld : i.heldBy job with
  | none => simpa using h
  | some f =>
    have hmem : f ∈ i.flights := mem_of_find?_eq_some hheld
    have hjob : f.job = job := by simpa using find?_some hheld
    refine ⟨nodup_remove h.lanes _, fun t => ?_, fun c => ?_⟩
    · have hremove := count_remove h.lanes hmem t
      simp [takenIn, answeredIn, lapsedIn] at hflights ⊢
      grind [ticket]
    · simpa [lapsedIn, handedIn] using h.collects c

theorem Accounted.takeUnanswered (now : Instant) :
    Accounted (log ++ (i.step (.takeUnanswered now)).2) (i.step (.takeUnanswered now)).1 := by
  have hflights := h.flights
  have hsplit := filter_append_perm (fun f : HeldFlight => decide (now < f.deadline)) i.flights
  refine ⟨h.lanes.sublist (filter_sublist.map _), fun t => ?_, fun c => ?_⟩
  · have hcount := (hsplit.map ticket).count_eq t
    simp [step, CollectInflight.takeUnanswered, takenIn, answeredIn, lapsedIn, lapsed,
      filterMap_map] at hflights hcount ⊢
    grind
  · have hc := h.collects c
    have hlapsed : (i.lapsed now).filterMap (Ticket.collect ∘ ticket)
        = (i.lapsed now).filterMap collect := rfl
    simp [step, CollectInflight.takeUnanswered, lapsedIn, handedIn, filterMap_map,
      ← hlapsed] at hc ⊢
    omega

theorem Accounted.step (op : Op) : Accounted (log ++ (i.step op).2) (i.step op).1 := by
  cases op with
  | acquire org lane job tier lease now => exact h.acquire org lane job tier lease now
  | extend job lease now => simpa [CollectInflight.step] using h.extend job lease now
  | complete job => exact h.complete job
  | takeUnanswered now => exact h.takeUnanswered now

end

/-- The jobs of the flights that were taken are those of acquires. -/
theorem takenIn_sublist (i : CollectInflight) (ops : List Op) :
    ((takenIn (emitAll step i ops).2).map Ticket.job).Sublist (ops.filterMap Op.takes) := by
  induction ops generalizing i with
  | nil => exact .slnil
  | cons op rest ih =>
    rw [emitAll_cons_snd, takenIn, filterMap_append, map_append]
    have htail := ih (i.step op).1
    cases op with
    | acquire org lane job tier lease now =>
      refine List.Sublist.append (show List.Sublist _ [job] from ?_) htail
      rw [CollectInflight.step]
      split <;> simp
    | extend job lease now =>
      exact htail
    | complete job | takeUnanswered now =>
      rw [filterMap_cons_none rfl]
      simpa [CollectInflight.step, takenIn, filterMap_map] using htail

/-- A job holds one flight at most. -/
theorem Accounted.job_unique (h : Accounted log i) (hjobs : ((takenIn log).map Ticket.job).Nodup)
    {g : HeldFlight} (hf : f ∈ i.flights) (hg : g ∈ i.flights) (hjob : f.job = g.job) : f = g := by
  have hle : ∀ t, (i.flights.map ticket).count t ≤ (takenIn log).count t := fun t => by
    have := h.flights t
    omega
  have htaken : ∀ f ∈ i.flights, ticket f ∈ takenIn log := fun f hf =>
    count_pos_iff.1 ((count_pos_iff.2 (mem_map_of_mem hf)).trans_le (hle _))
  have hticket := inj_on_of_nodup_map hjobs (htaken f hf) (htaken g hg) hjob
  refine inj_on_of_nodup_map (nodup_iff_count_le_one.2 fun t => (hle t).trans ?_) hf hg hticket
  exact nodup_iff_count_le_one.1 (.of_map _ hjobs) t

end

/-! ### The lanes of the schedule -/

/-- The lanes as the schedule reads them. -/
def lanes (i : CollectInflight) : MerakiInflight :=
  ⟨fun org lane => (i.get (org, lane)).map fun f => ⟨f.job, f.deadline⟩⟩

section
variable {i : CollectInflight} (hkeys : (i.flights.map key).Nodup) {f : HeldFlight}

include hkeys

theorem get_eq_some {key : Uuid × MerakiLane} :
    i.get key = some f ↔ f ∈ i.flights ∧ f.key = key := by
  refine ⟨get_mem, fun ⟨hf, hkey⟩ => ?_⟩
  have hsome : (i.get key).isSome := find?_isSome.2 ⟨f, hf, decide_eq_true hkey⟩
  obtain ⟨g, hg⟩ := Option.isSome_iff_exists.1 hsome
  have hmem := get_mem hg
  rw [inj_on_of_nodup_map hkeys hf hmem.1 (hkey.trans hmem.2.symm)]
  exact hg

/-- A lane that is kept holds what it held. -/
theorem get_filter (p : HeldFlight → Bool) (unanswered : List (Uuid × MerakiTier))
    (key : Uuid × MerakiLane) :
    get ⟨i.flights.filter p, unanswered⟩ key = (i.get key).filter p := by
  refine Option.ext fun f => ?_
  rw [Option.filter_eq_some_iff, get_eq_some hkeys,
    get_eq_some (i := ⟨i.flights.filter p, unanswered⟩) (hkeys.sublist (filter_sublist.map _))]
  simp only [mem_filter, and_right_comm]

/-- Taking a lane is taking it where the schedule reads it. -/
theorem lanes_take {org lane job tier lease now} :
    (i.take org lane job tier lease now).map lanes = i.lanes.take org lane job lease now := by
  rw [MerakiInflight.take]
  rcases i.take_cases org lane job tier lease now with
    ⟨htake, f, hf, hkey, hlease⟩ | ⟨hfree, htake⟩
  · have hget := (get_eq_some hkeys).2 ⟨hf, hkey⟩
    simp [htake, MerakiInflight.isInflight, lanes, hget, hlease]
  · have hheld : i.lanes.isInflight org lane now = false := by
      cases hget : i.get (org, lane) with
      | none => simp [MerakiInflight.isInflight, lanes, hget]
      | some f => simpa [MerakiInflight.isInflight, lanes, hget] using hfree f hget
    rw [htake, hheld, if_neg Bool.false_ne_true, Option.map_some]
    refine congrArg (some ∘ MerakiInflight.mk) (funext fun o => funext fun l => ?_)
    have hrest : (i.remove (org, lane)).find? (fun f => decide (f.key = (o, l))) = _ :=
      get_filter hkeys (fun f => decide (f.key ≠ (org, lane))) i.unanswered (o, l)
    have hkept : (i.get (o, l)).filter (fun f => decide (f.key ≠ (org, lane)))
        = if (o, l) = (org, lane) then none else i.get (o, l) := by
      cases hget : i.get (o, l) with
      | none => simp
      | some f =>
        simp only [Option.filter, (get_mem hget).2, decide_eq_true_eq]
        exact ite_not ..
    rw [get, find?_append, hrest, hkept]
    by_cases ho : o = org
    · by_cases hl : l = lane
      · simp [ho, hl, key]
      · simp [ho, hl, Ne.symm hl, key, lanes]
    · simp [ho, Ne.symm ho, key, lanes]

end

section
variable {i : CollectInflight} {log : List Event} (h : Accounted log i)
  (hjobs : ((takenIn log).map Ticket.job).Nodup)

include h hjobs

/-- An answer leaves the flights of the other jobs. -/
theorem flights_complete (job : Uuid) :
    (i.complete job).1.flights = i.flights.filter fun f => decide (f.job ≠ job) := by
  unfold complete
  cases hheld : i.heldBy job with
  | none => exact (filter_eq_self.2 fun f hf => by simpa using find?_eq_none.1 hheld f hf).symm
  | some g =>
    have hg : g ∈ i.flights := mem_of_find?_eq_some hheld
    have hg' : g.job = job := by simpa using find?_some hheld
    refine filter_congr fun f hf => decide_eq_decide.2 (not_congr ⟨fun hkey => ?_, fun hf' => ?_⟩)
    · rw [inj_on_of_nodup_map h.lanes hf hg hkey, hg']
    · rw [h.job_unique hjobs hf hg (hf'.trans hg'.symm)]

/-- What the operations do to the lanes is what they do where the schedule reads them. -/
theorem lanes_step :
    (∀ org lane job tier lease now,
      (i.take org lane job tier lease now).map lanes = i.lanes.take org lane job lease now) ∧
    (∀ job, (i.complete job).1.lanes = i.lanes.complete job) ∧
    (∀ job lease now, (i.extend job lease now).lanes = i.lanes.extend job lease now) ∧
    ∀ now, (i.takeUnanswered now).1.lanes = i.lanes.takeUnanswered now := by
  refine ⟨fun org lane job tier lease now => ?_, fun job => ?_, fun job lease now => ?_,
    fun now => ?_⟩
  · exact lanes_take h.lanes
  · refine congrArg MerakiInflight.mk (funext fun o => funext fun l => ?_)
    have := get_filter h.lanes (fun f => decide (f.job ≠ job)) (i.complete job).1.unanswered (o, l)
    rw [← flights_complete h hjobs] at this
    rw [this]
    cases hget : i.get (o, l) <;> simp [lanes, hget, Option.filter, apply_ite]
  · refine congrArg MerakiInflight.mk (funext fun o => funext fun l => ?_)
    have hkey : ∀ f : HeldFlight,
        (if f.job = job then { f with deadline := now + lease } else f).key = f.key := by
      intro f
      split <;> rfl
    simp only [extend, get, find?_map, Option.map_map, lanes, Function.comp_def, hkey]
    congr 1
    funext f
    split <;> rfl
  · refine congrArg MerakiInflight.mk (funext fun o => funext fun l => ?_)
    rw [takeUnanswered, get_filter h.lanes]
    cases hget : i.get (o, l) <;> simp [lanes, hget, Option.filter, apply_ite]

end

end Yagra.Meraki.CollectInflight
