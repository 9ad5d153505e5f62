import Yagra.Fleet.Coordinator

/-!
# `Yagra.Proofs.Coordinator`: what a reconcile does to one poller

`commitPlan` handles the members of a plan one after another, and each only by what core keeps
about that member (`commitMember_local`). So what a reconcile does to a poller is what its own
step does: `commitPlan_cases`. From this come the two facts about a round of reconciles: a
reconcile does not touch the pollers of other pools, and it sends a snapshot to each live member
that is due one.
-/

set_option autoImplicit false

namespace Yagra.Fleet

/-- The least a check can be. -/
instance : JobSpec Unit := ⟨fun _ => 60, fun _ => [], List.length⟩

namespace Coordinator

open Std (ExtTreeMap)
open Yagra.Lib List

variable {Spec : Type} [JobSpec Spec] {me : PollerId} {c d : Coordinator} {plan : Plan Spec}

/-! ### One member -/

/-- The messages for one poller. -/
abbrev addressed (me : PollerId) (msgs : List (SyncMsg Spec)) : List (SyncMsg Spec) :=
  msgs.filter fun m => decide (m.pollerId = me)

section
variable {epoch : Uuid} {pool : PoolName} {m : PollerId} {t : ExtTreeMap NodeId (List Spec)}
  {entry entry' : PollerEntry} {prev : Option (ExtTreeMap NodeId Nat)} {msgs : List (SyncMsg Spec)}

/-- What a member is sent: a snapshot, or a delta if none was due. -/
theorem syncMember_cases (h : syncMember epoch pool m t entry prev = some (entry', msgs)) :
    entry' = { entry with seq := entry.seq + 1, needsSnapshot := false } ∧
      (msgs = snapshotOf epoch pool m (entry.seq + 1) t ∨
        entry.needsSnapshot = false ∧ ∃ d, msgs = [.delta d] ∧ d.pollerId = m) := by
  simp only [syncMember] at h
  split at h
  next => simp at h
  next =>
    split at h
    next =>
      obtain ⟨rfl, rfl⟩ := Prod.mk.inj (Option.some.inj h)
      exact ⟨rfl, .inl rfl⟩
    next hsnapshot =>
      obtain ⟨rfl, rfl⟩ := Prod.mk.inj (Option.some.inj h)
      have hnot : entry.needsSnapshot = false := by
        simpa using fun hdue => hsnapshot (.inl hdue)
      exact ⟨by rw [hnot], .inr ⟨hnot, _, rfl, rfl⟩⟩

theorem syncMember_pollerId (h : syncMember epoch pool m t entry prev = some (entry', msgs)) :
    ∀ msg ∈ msgs, msg.pollerId = m := by
  intro msg hmsg
  rcases (syncMember_cases h).2 with rfl | ⟨-, d, rfl, hd⟩
  · obtain ⟨⟨nodes, i⟩, -, rfl⟩ := mem_map.1 hmsg
    rfl
  · rw [mem_singleton.1 hmsg]
    exact hd

end

/-- What core keeps about one poller. -/
def slotOf (me : PollerId) (c : Coordinator) :
    Option PollerEntry × Option (ExtTreeMap NodeId Nat) :=
  (c.pollers[me]?, c.published[me]?)

/-- One member's part of the second locked section. -/
theorem commitMember_cases (plan : Plan Spec) (c : Coordinator) (m : PollerId) :
    commitMember plan c m = (c, []) ∨
    ∃ entry entry' msgs, c.pollers[m]? = some entry ∧
      syncMember c.epoch plan.pool m (plan.targets m) entry c.published[m]? = some (entry', msgs) ∧
      commitMember plan c m = ({ c with
        pollers := c.pollers.insert m entry'
        published := c.published.insert m (fingerprints (plan.targets m)) }, msgs) := by
  rw [commitMember]
  split
  next => exact .inl rfl
  next entry hentry =>
    split
    next => exact .inl rfl
    next entry' msgs hsync => exact .inr ⟨entry, entry', msgs, hentry, hsync, rfl⟩

/-- A member's part reads and writes only what core keeps about that member. -/
theorem commitMember_local (plan : Plan Spec) :
    Local (commitMember plan) (fun _ => True) id SyncMsg.pollerId slotOf Coordinator.epoch where
  inv_step := fun _ _ _ => trivial
  frame := by
    intro c m k _ hk
    rcases commitMember_cases plan c m with h | ⟨entry, entry', msgs, _, _, h⟩
    · rw [h]
    · have hne : ¬ m = k := fun e => hk e.symm
      rw [h]
      simp [slotOf, ExtTreeMap.getElem?_insert, hne]
  env_eq := by
    intro c m
    rcases commitMember_cases plan c m with h | ⟨entry, entry', msgs, _, _, h⟩ <;> rw [h]
  out := by
    intro c m _ msg hmsg
    rcases commitMember_cases plan c m with h | ⟨entry, entry', msgs, _, hsync, h⟩
    · rw [h] at hmsg
      simp at hmsg
    · rw [h] at hmsg
      exact syncMember_pollerId hsync msg hmsg
  det := by
    intro c d m hepoch hslot
    obtain ⟨hpollers, hpublished⟩ := Prod.mk.inj hslot
    have hpollers : c.pollers[m]? = d.pollers[m]? := hpollers
    have hpublished : c.published[m]? = d.published[m]? := hpublished
    simp only [commitMember, hpollers, hpublished, hepoch]
    split
    next => exact ⟨hslot, rfl⟩
    next =>
      split
      next => exact ⟨hslot, rfl⟩
      next => exact ⟨by simp [slotOf], rfl⟩

/-- The second locked section, for one poller: nothing happens, or the poller is given the next
number. -/
theorem commitPlan_cases (hnodup : plan.members.Nodup) (me : PollerId) :
    (c.commitPlan plan).1.epoch = c.epoch ∧
    ((slotOf me (c.commitPlan plan).1 = slotOf me c ∧
        addressed me (c.commitPlan plan).2 = []) ∨
      ∃ entry entry' msgs, c.pollers[me]? = some entry ∧
        syncMember c.epoch plan.pool me (plan.targets me) entry c.published[me]?
          = some (entry', msgs) ∧
        slotOf me (c.commitPlan plan).1 = (some entry', some (fingerprints (plan.targets me))) ∧
        addressed me (c.commitPlan plan).2 = msgs) := by
  have hlocal := commitMember_local plan
  refine ⟨hlocal.emitAll_env c plan.members, ?_⟩
  by_cases hme : me ∈ plan.members
  · obtain ⟨hslot, hout⟩ := hlocal.emitAll_of_mem (by simpa using hnodup) hme (s := c) trivial
    have hslot : slotOf me (c.commitPlan plan).1 = slotOf me (commitMember plan c me).1 := hslot
    have hout : addressed me (c.commitPlan plan).2 = (commitMember plan c me).2 := hout
    rcases commitMember_cases plan c me with h | ⟨entry, entry', msgs, hentry, hsync, h⟩
    · exact .inl ⟨by rw [hslot, h], by rw [hout, h]⟩
    · refine .inr ⟨entry, entry', msgs, hentry, hsync, ?_, by rw [hout, h]⟩
      rw [hslot, h]
      simp [slotOf]
  · exact .inl (hlocal.emitAll_of_notMem (by simpa using hme) trivial)

/-! ### The members of a pool -/

omit [JobSpec Spec] in
/-- The live pollers are listed in the order of their ids, each once. -/
theorem liveMembers_sorted (c : Coordinator) (pool : PoolName) (now : Instant) :
    (c.liveMembers pool now).SortedLT := by
  have hkeys : (c.pollers.toList.map (·.1)).Pairwise (· < ·) := by
    rw [ExtTreeMap.map_fst_toList_eq_keys]
    exact ExtTreeMap.ordered_keys.imp fun {a b} hab => compare_lt_iff_lt.1 hab
  rw [sortedLT_iff_pairwise]
  exact hkeys.sublist (filter_sublist.map _)

theorem planPool_nodup {ring : Ring} {pool : PoolName} {desired : ExtTreeMap NodeId (List Spec)}
    {now : Instant} (h : planPool ring c pool desired now = some plan) : plan.members.Nodup := by
  simp only [planPool] at h
  split at h
  · simp at h
  · cases h
    exact (liveMembers_sorted c pool now).nodup

section
variable {pool : PoolName} {now : Instant} {ring : Ring} {desired : ExtTreeMap NodeId (List Spec)}
  {e : PollerEntry}

/-- What is listed of the pollers that pass a test. -/
theorem mem_map_pollers {β : Type} {test : PollerId × PollerEntry → Bool}
    {f : PollerId × PollerEntry → β} {b : β} :
    b ∈ (c.pollers.toList.filter test).map f ↔
      ∃ m e, c.pollers[m]? = some e ∧ test (m, e) = true ∧ f (m, e) = b := by
  simp only [mem_map, mem_filter, Prod.exists, ExtTreeMap.mem_toList_iff_getElem?_eq_some,
    and_assoc]

theorem mem_liveMembers :
    me ∈ c.liveMembers pool now ↔
      ∃ e, c.pollers[me]? = some e ∧ e.pool = pool ∧ isOnline now e = true := by
  simp [liveMembers, mem_map_pollers, and_assoc]

/-- A pool is live when one of its pollers is. -/
theorem mem_livePools :
    pool ∈ c.livePools now ↔
      ∃ (m : PollerId) (e : PollerEntry), c.pollers[m]? = some e ∧ e.pool = pool ∧
        isOnline now e = true := by
  simp [livePools, mem_map_pollers, and_comm]

theorem planPool_members (h : planPool ring c pool desired now = some plan) :
    plan.pool = pool ∧ plan.members = c.liveMembers pool now := by
  simp only [planPool] at h
  split at h
  · simp at h
  · cases h
    exact ⟨rfl, rfl⟩

/-- A reconcile does not touch the pollers of other pools. -/
theorem reconcilePool_other (he : c.pollers[me]? = some e) (hpool : e.pool ≠ pool) (ring : Ring)
    (desired : ExtTreeMap NodeId (List Spec)) (now : Instant) :
    (c.reconcilePool ring pool desired now).1.epoch = c.epoch ∧
      (c.reconcilePool ring pool desired now).1.pollers[me]? = some e := by
  rw [reconcilePool]
  cases hplan : planPool ring c pool desired now with
  | none => exact ⟨rfl, he⟩
  | some plan =>
    have hlocal := commitMember_local plan
    refine ⟨hlocal.emitAll_env c plan.members, ?_⟩
    have hout : me ∉ plan.members.map id := by
      rw [map_id, (planPool_members hplan).2, mem_liveMembers]
      rintro ⟨e', he', hpool', -⟩
      cases he.symm.trans he'
      exact hpool hpool'
    have hslot := (hlocal.emitAll_of_notMem hout (s := c) trivial).1
    exact (congrArg Prod.fst hslot).trans he

/-- A member that is due a snapshot is sent one. -/
theorem syncMember_snapshot (hdue : e.needsSnapshot = true) (epoch : Uuid) (pool : PoolName)
    (me : PollerId) (t : ExtTreeMap NodeId (List Spec)) (prev : Option (ExtTreeMap NodeId Nat)) :
    ∃ e', syncMember epoch pool me t e prev
      = some (e', snapshotOf epoch pool me (e.seq + 1) t) := by
  simp [syncMember, hdue]

/-- A reconcile sends a snapshot to a live member that is due one. -/
theorem reconcilePool_snapshot (he : c.pollers[me]? = some e) (honline : isOnline now e = true)
    (hdue : e.needsSnapshot = true) (ring : Ring) (desired : ExtTreeMap NodeId (List Spec)) :
    ∃ target, ∀ msg ∈ snapshotOf c.epoch e.pool me (e.seq + 1) target,
      msg ∈ (c.reconcilePool ring e.pool desired now).2 := by
  have hlive : me ∈ c.liveMembers e.pool now := mem_liveMembers.2 ⟨e, he, rfl, honline⟩
  rw [reconcilePool]
  cases hplan : planPool ring c e.pool desired now with
  | none =>
    simp only [planPool, List.isEmpty_iff] at hplan
    split at hplan
    next hnone => simp [hnone] at hlive
    next => simp at hplan
  | some plan =>
    obtain ⟨hpool, hmembers⟩ := planPool_members hplan
    refine ⟨plan.targets me, ?_⟩
    intro msg hmsg
    obtain ⟨-, hout⟩ := (commitMember_local plan).emitAll_of_mem
      (by simpa using planPool_nodup hplan) (hmembers ▸ hlive) (s := c) trivial
    have hout : addressed me (c.commitPlan plan).2 = (commitMember plan c me).2 := hout
    obtain ⟨e', hsync⟩ := syncMember_snapshot hdue c.epoch plan.pool me (plan.targets me)
      c.published[me]?
    have hsent : (commitMember plan c me).2
        = snapshotOf c.epoch plan.pool me (e.seq + 1) (plan.targets me) := by
      simp [commitMember, he, hsync]
    have hmem : msg ∈ addressed me (c.commitPlan plan).2 := by
      rw [hout, hsent, hpool]
      exact hmsg
    exact (mem_filter.1 hmem).1

end

end Coordinator

end Yagra.Fleet
