import Yagra.Proofs.Sync

/-!
# `Yagra.Proofs.PoolMoves`: how a poller learns its pool

A poller learns its pool from a snapshot. `Told` says that core keeps up with this: a poller that
is registered in a pool is due a snapshot, or the last one built for it names that pool. A move
makes a snapshot due. So does everything else that can end the agreement, with one exception.

A reconcile that made its first section before a move still takes the poller for a member of the
old pool. If it reaches its second section after the move, it builds the snapshot that the move made
due, with the name of the old pool. `Current` is the condition that this does not happen: no
reconcile completes with a member that is registered in another pool by then.
-/

set_option autoImplicit false

namespace Yagra.Fleet

open Std (ExtTreeMap)
open Yagra.Lib Coordinator List
open Coordinator (snapshotOf syncMember syncMember_cases addressed planPool_nodup planPool_members
  mem_liveMembers)

variable {Spec : Type} [JobSpec Spec]

namespace Reconciles

variable {c d : Coordinator} {s : Reconciles Spec} {ring : Ring} {m : PollerId}

/-! ### What the coordinator's other operations do to an entry -/

/-- Every entry is due a snapshot, or has its pool from before and is due one as before. -/
def Renews (c d : Coordinator) : Prop :=
  ∀ (m : PollerId) (e' : PollerEntry), d.pollers[m]? = some e' → e'.needsSnapshot = true ∨
    ∃ e, c.pollers[m]? = some e ∧ e.pool = e'.pool ∧ e.needsSnapshot = e'.needsSnapshot

theorem Renews.refl (c : Coordinator) : Renews c c :=
  fun _ e' he' => .inr ⟨e', he', rfl, rfl⟩

/-- An entry is written for one poller. -/
theorem Renews.insert (lastLive : PoolName → Option Instant) {p : PollerId} {e' : PollerEntry}
    (he' : e'.needsSnapshot = true ∨
      ∃ e, c.pollers[p]? = some e ∧ e.pool = e'.pool ∧ e.needsSnapshot = e'.needsSnapshot) :
    Renews c { c with pollers := c.pollers.insert p e', poolLastLive := lastLive } := by
  intro m e hm
  rw [ExtTreeMap.getElem?_insert] at hm
  split at hm
  next heq =>
    obtain rfl := Std.compare_eq_iff_eq.1 heq
    cases hm
    exact he'
  next => exact .inr ⟨e, hm, rfl, rfl⟩

variable (c)

theorem observeHeartbeat_renews (hb : HeartbeatMsg) (now : Instant) :
    Renews c (c.observeHeartbeat hb now).1 := by
  rw [observeHeartbeat]
  split
  next =>
    intro m e he
    rw [ExtTreeMap.getElem?_erase] at he
    split at he
    next => simp at he
    next => exact .inr ⟨e, he, rfl, rfl⟩
  next =>
    refine Renews.insert _ ?_
    cases hknown : c.pollers[hb.pollerId]? with
    | none => exact .inl rfl
    | some e =>
      -- The beat makes a snapshot due, or leaves that as it was.
      show (e.needsSnapshot || decide (e.incarnation ≠ hb.incarnation)
        || decide (hb.epoch ≠ some c.epoch) || decide (hb.lastSeq ≠ e.seq)) = true ∨ _
      cases hdue : (e.needsSnapshot || decide (e.incarnation ≠ hb.incarnation)
          || decide (hb.epoch ≠ some c.epoch) || decide (hb.lastSeq ≠ e.seq)) with
      | true => exact .inl rfl
      | false =>
        refine .inr ⟨e, rfl, rfl, ?_⟩
        have hwas : e.needsSnapshot = false := by
          simp only [Bool.or_eq_false_iff] at hdue
          exact hdue.1.1.1
        exact hwas.trans hdue.symm

theorem observeSyncRequest_renews (req : SyncRequest) (now : Instant) :
    Renews c (c.observeSyncRequest req now) :=
  Renews.insert c.poolLastLive (.inl rfl)

theorem setPool_renews (pollerId : PollerId) (pool : PoolName) :
    Renews c (c.setPool pollerId pool) := by
  rw [setPool]
  split
  next => exact Renews.refl c
  next e he =>
    split
    · exact Renews.insert c.poolLastLive (.inl rfl)
    · exact Renews.refl c

variable {c}

/-! ### The invariant -/

variable {core : Coordinator} {p : PendingReconcile Spec} {pool : PoolName}

theorem registeredIn_iff :
    registeredIn c pool m = true ↔ ∃ e, c.pollers[m]? = some e ∧ e.pool = pool := by
  rw [registeredIn, Option.any_eq_true]
  simp

/-- No reconcile completes with a member that is registered in another pool by then. -/
def Current (s : Reconciles Spec) : Op Spec → Prop
  | .commit i => ∀ p ∈ s.pending[i]?, ∀ m ∈ p.plan.members, ∀ e ∈ s.core.pollers[m]?,
      e.pool = p.plan.pool
  | _ => True

instance (s : Reconciles Spec) : ∀ op, Decidable (s.Current op)
  | .commit i => inferInstanceAs (Decidable (∀ p ∈ s.pending[i]?, ∀ m ∈ p.plan.members,
      ∀ e ∈ s.core.pollers[m]?, e.pool = p.plan.pool))
  | .heartbeat .. | .syncRequest .. | .setPool .. | .adoptPool .. | .plan .. => isTrue trivial

/-- What every poller was told last. -/
structure Told (s : Reconciles Spec) : Prop where
  named : ∀ (m : PollerId) (e : PollerEntry), s.core.pollers[m]? = some e →
    e.needsSnapshot = true ∨ s.lastSnapshot m = some e.pool
  planned : ∀ p ∈ s.pending, p.plan.members.Nodup ∧
    ∀ m ∈ p.stayed, m ∈ p.plan.members ∧ registeredIn s.core p.plan.pool m = true

omit [JobSpec Spec] in
theorem start_told (epoch : Uuid) : (start epoch : Reconciles Spec).Told :=
  ⟨fun m e he => by simp [start, new] at he, fun p hp => by simp [start] at hp⟩

omit [JobSpec Spec] in
/-- The pending calls after the coordinator has changed. -/
theorem withCore_planned
    (h : ∀ p ∈ s.pending, p.plan.members.Nodup ∧ ∀ m ∈ p.stayed, m ∈ p.plan.members) :
    ∀ p ∈ (s.withCore core).pending, p.plan.members.Nodup ∧
      ∀ m ∈ p.stayed, m ∈ p.plan.members ∧ registeredIn core p.plan.pool m = true := by
  intro p hp
  obtain ⟨q, hq, rfl⟩ := mem_map.1 hp
  refine ⟨(h q hq).1, fun m hm => ?_⟩
  obtain ⟨hstayed, hreg⟩ := mem_filter.1 hm
  exact ⟨(h q hq).2 m hstayed, hreg⟩

omit [JobSpec Spec] in
theorem Told.members (h : s.Told) :
    ∀ p ∈ s.pending, p.plan.members.Nodup ∧ ∀ m ∈ p.stayed, m ∈ p.plan.members :=
  fun p hp => ⟨(h.planned p hp).1, fun m hm => ((h.planned p hp).2 m hm).1⟩

omit [JobSpec Spec] in
theorem Told.withCore (h : s.Told) (hcore : Renews s.core core) : (s.withCore core).Told := by
  refine ⟨fun m e' he' => ?_, withCore_planned h.members⟩
  rcases hcore m e' he' with hdue | ⟨e, he, hpool, hdue⟩
  · exact .inl hdue
  · rw [← hdue, ← hpool]
    exact h.named m e he

theorem Told.plan (h : s.Told) (pool : PoolName) (desired : ExtTreeMap NodeId (List Spec))
    (now : Instant) : (s.step ring (.plan pool desired now)).Told := by
  rw [step]
  split
  next => exact h
  next plan hplan =>
    refine ⟨h.named, fun p hp => ?_⟩
    rcases mem_append.1 hp with hp | hp
    · exact h.planned p hp
    · obtain rfl := mem_singleton.1 hp
      obtain ⟨hpool, hmembers⟩ := planPool_members hplan
      refine ⟨planPool_nodup hplan, fun m hm => ⟨hm, ?_⟩⟩
      obtain ⟨e, he, hin, -⟩ := mem_liveMembers.1 (hmembers ▸ hm)
      exact registeredIn_iff.2 ⟨e, he, hin.trans hpool.symm⟩

/-! ### The second locked section -/

omit [JobSpec Spec] in
theorem recordSnapshots_eq (last : PollerId → Option PoolName) (msgs : List (SyncMsg Spec))
    (m : PollerId) :
    recordSnapshots last msgs m = match (addressed m msgs).getLast? with
      | some (.snapshotChunk snap) => snap.pool
      | _ => last m := rfl

omit [JobSpec Spec] in
/-- The last snapshot of a poller for which a snapshot was built. -/
theorem recordSnapshots_snapshot {last : PollerId → Option PoolName} {msgs : List (SyncMsg Spec)}
    {epoch : Uuid} {seq : Nat} {t : ExtTreeMap NodeId (List Spec)}
    (h : addressed m msgs = snapshotOf epoch pool m seq t) :
    recordSnapshots last msgs m = some pool := by
  have hne := snapshotOf_ne_nil epoch pool m seq t
  obtain ⟨chunk, -, hchunk⟩ := mem_map.1 (getLast_mem hne)
  rw [recordSnapshots_eq, h, getLast?_eq_some_getLast hne, ← hchunk]

/-- A poller that is not a member stays as it is. -/
theorem commit_other (hm : m ∉ p.plan.members) (last : PollerId → Option PoolName) :
    (c.commitPlan p.plan).1.pollers[m]? = c.pollers[m]? ∧
      recordSnapshots last (c.commitPlan p.plan).2 m = last m := by
  obtain ⟨hslot, hout⟩ := (commitMember_local p.plan).emitAll_of_notMem
    (by simpa using hm) (s := c) trivial
  have hout : addressed m (c.commitPlan p.plan).2 = [] := hout
  refine ⟨congrArg Prod.fst hslot, ?_⟩
  rw [recordSnapshots_eq, hout, getLast?_nil]

/-- A member is not due a snapshot any more. It was sent one, or none was due. -/
theorem commit_member (hnodup : p.plan.members.Nodup) (hm : m ∈ p.plan.members) {e : PollerEntry}
    (he : c.pollers[m]? = some e) (last : PollerId → Option PoolName) :
    (∃ e', (c.commitPlan p.plan).1.pollers[m]? = some e' ∧ e'.pool = e.pool ∧
      e'.needsSnapshot = false) ∧
    (recordSnapshots last (c.commitPlan p.plan).2 m = some p.plan.pool ∨
      e.needsSnapshot = false ∧ recordSnapshots last (c.commitPlan p.plan).2 m = last m) := by
  obtain ⟨hslot, hout⟩ := (commitMember_local p.plan).emitAll_of_mem
    (by simpa using hnodup) hm (s := c) trivial
  have hentry : (c.commitPlan p.plan).1.pollers[m]?
      = (commitMember p.plan c m).1.pollers[m]? := congrArg Prod.fst hslot
  have hout : addressed m (c.commitPlan p.plan).2 = (commitMember p.plan c m).2 := hout
  rw [hentry]
  simp only [commitMember, he] at hout ⊢
  cases hsync : syncMember c.epoch p.plan.pool m (p.plan.targets m) e c.published[m]? with
  | none =>
    rw [hsync] at hout
    -- Nothing changed and no snapshot was due.
    have hdue : e.needsSnapshot = false := by
      simp only [syncMember] at hsync
      split at hsync
      next hnothing => exact hnothing.2
      next => split at hsync <;> simp at hsync
    refine ⟨⟨e, he, rfl, hdue⟩, .inr ⟨hdue, ?_⟩⟩
    rw [recordSnapshots_eq, hout, getLast?_nil]
  | some sent =>
    obtain ⟨e', msgs⟩ := sent
    rw [hsync] at hout
    obtain ⟨rfl, hkind⟩ := syncMember_cases hsync
    refine ⟨⟨_, ExtTreeMap.getElem?_insert_self, rfl, rfl⟩, ?_⟩
    rcases hkind with rfl | ⟨hdue, delta, rfl, -⟩
    · exact .inl (recordSnapshots_snapshot hout)
    · refine .inr ⟨hdue, ?_⟩
      rw [recordSnapshots_eq, hout, getLast?_singleton]

theorem Told.commit (h : s.Told) {i : Nat} (hcurrent : s.Current (.commit i)) :
    (s.step ring (.commit i)).Told := by
  rw [step]
  split
  next => exact h
  next p hp =>
    have hmem : p ∈ s.pending := mem_of_getElem? hp
    refine ⟨fun m e' he' => ?_, withCore_planned fun q hq => ?_⟩
    · show e'.needsSnapshot = true ∨
        recordSnapshots s.lastSnapshot (s.core.commitPlan p.plan).2 m = some e'.pool
      have he' : (s.core.commitPlan p.plan).1.pollers[m]? = some e' := he'
      by_cases hm : m ∈ p.plan.members
      · cases he : s.core.pollers[m]? with
        | none =>
          -- A poller that has left is not registered by the call.
          obtain ⟨hslot, -⟩ := (commitMember_local p.plan).emitAll_of_mem
            (by simpa using (h.planned p hmem).1) hm (s := s.core) trivial
          have hnone : (s.core.commitPlan p.plan).1.pollers[m]?
              = (commitMember p.plan s.core m).1.pollers[m]? :=
            congrArg Prod.fst hslot
          simp [commitMember, he, he'] at hnone
        | some e =>
          obtain ⟨⟨e₁, he₁, hpool, hdue⟩, hsent⟩ :=
            commit_member (h.planned p hmem).1 hm he s.lastSnapshot
          cases he'.symm.trans he₁
          refine .inr ?_
          rw [hpool]
          rcases hsent with hnamed | ⟨hnot, hlast⟩
          · rw [hnamed, hcurrent p hp m hm e he]
          · rw [hlast]
            exact (h.named m e he).resolve_left (by simp [hnot])
      · obtain ⟨hentry, hlast⟩ := commit_other (c := s.core) hm s.lastSnapshot
        rw [hlast]
        exact h.named m e' (hentry.symm.trans he')
    · exact h.members q (mem_of_mem_eraseIdx hq)

theorem Told.step (h : s.Told) {op : Op Spec} (hop : s.Current op) : (s.step ring op).Told := by
  cases op with
  | heartbeat hb now => exact h.withCore (observeHeartbeat_renews s.core hb now)
  | syncRequest req now => exact h.withCore (observeSyncRequest_renews s.core req now)
  | setPool pollerId pool | adoptPool pollerId pool =>
    exact h.withCore (setPool_renews s.core pollerId pool)
  | plan pool desired now => exact h.plan pool desired now
  | commit i => exact h.commit hop

/-- In every run in which no reconcile completes with a member that is registered in another pool by
then: when a reconcile completes, the last snapshot built for each member that has been registered
in its pool since the first section names that pool. -/
theorem moved_poller_learns_pool (ring : Ring) (epoch : Uuid) (before : List (Op Spec)) (i : Nat)
    (hbefore : Meets Current (step ring) (start epoch) before) :
    let s := before.foldl (step ring) (start epoch)
    ∀ p ∈ s.pending[i]?, ∀ m ∈ p.stayed,
      (s.step ring (.commit i)).lastSnapshot m = some p.plan.pool := by
  intro s p hp m hm
  have htold : s.Told :=
    hbefore.invariant (fun s op hop hs => hs.step hop) (start_told epoch)
  obtain ⟨hnodup, hstayed⟩ := htold.planned p (List.mem_of_getElem? hp)
  obtain ⟨hmember, hreg⟩ := hstayed m hm
  obtain ⟨e, he, hpool⟩ := registeredIn_iff.1 hreg
  have hlast : (s.step ring (.commit i)).lastSnapshot
      = recordSnapshots s.lastSnapshot (s.core.commitPlan p.plan).2 := by
    have hp : s.pending[i]? = some p := hp
    simp only [step, hp]
  rw [hlast]
  rcases (commit_member hnodup hmember he s.lastSnapshot).2 with hnamed | ⟨hdue, hsame⟩
  · exact hnamed
  · rw [hsame, ← hpool]
    exact (htold.named m e he).resolve_left (by simp [hdue])

/-! ### A reconcile of the old pool -/

/-- A poller joins a pool, is given an empty set, and is moved to another pool. -/
def moved : List (Op Unit) :=
  [.heartbeat ⟨7, "old", 0, none, 0, [], false⟩ 0, .plan "old" ∅ 0, .commit 0, .setPool 7 "new"]

theorem moved_poller_learns_pool_after_move :
    let s := (moved ++ [Op.plan "new" ∅ 0]).foldl (step fun _ _ => none) (start 0)
    ∀ p ∈ s.pending[0]?, ∀ m ∈ p.stayed,
      (s.step (fun _ _ => none) (.commit 0)).lastSnapshot m = some p.plan.pool :=
  moved_poller_learns_pool _ 0 _ 0 (by decide +kernel)

/-- A reconcile of the old pool makes its first section before the move and completes after it. It
builds the snapshot that the move made due. The reconcile of the new pool then finds nothing to
send, so the poller is never told. -/
def overtaken : List (Op Unit) :=
  [.heartbeat ⟨7, "old", 0, none, 0, [], false⟩ 0, .plan "old" ∅ 0, .setPool 7 "new",
    .plan "new" ∅ 0, .commit 0]

theorem stale_reconcile_names_old_pool :
    let s := overtaken.foldl (step fun _ _ => none) (start 0)
    let after := s.step (fun _ _ => none) (.commit 0)
    (s.pending[0]?).map (fun p => (p.plan.pool, p.stayed)) = some ("new", [7]) ∧
      registeredIn after.core "new" 7 = true ∧ after.lastSnapshot 7 = some "old" ∧
      (after.core.pollers[7]?).map (·.needsSnapshot) = some false := by
  decide +kernel

end Reconciles

end Yagra.Fleet
