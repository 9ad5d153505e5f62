import Mathlib.Data.Prod.Lex
import Yagra.Proofs.Rounds

/-!
# `Yagra.Proofs.Ownership`: every node has one poller

A round that reads the inventory hands each live pool the nodes of the pool, and a reconcile brings
every live member of the pool to its part of them. A member is left with exactly its target
(`publishes_commitPlan`), whatever was published to it before: its baseline is replaced, or it is
kept because it is the same set. No other call of the round touches the member
(`reconcilePool_slot`), and all calls see the same members (`reconcilePool_kept`).

The ring names one member of the pool for each node. So a node is published to that member and to no
other live poller: not to one of the same pool, and not to one of another pool, since the nodes of a
round have distinct ids.

The owner of a node is the member with the first point met, going round from the hash of the node
(`exists_first_point`). So a change of the members moves as few nodes as it can
(`ring_moves_minimum`).
-/

set_option autoImplicit false

open List (mem_filter mem_filterMap mem_map ne_nil_of_mem)
open Std.ExtTreeMap (map_fst_toList_eq_keys mem_iff_isSome_getElem? mem_keys mem_ofList)

namespace Yagra.Fleet

open Std (ExtTreeMap)
open Yagra.Lib List

/-! ### The ring -/

namespace HashRing

variable {h : RingHash} {members : List PollerId} {node : NodeId} {m : PollerId}

theorem mem_mintPoints {p : Nat × Nat} :
    p ∈ mintPoints h members ↔
      ∃ m, members[p.2]? = some m ∧ ∃ i < vnodesPerMember, h.vnodePoint m i = p.1 := by
  simp only [mintPoints, mem_flatMap, mem_map, mem_range, Prod.exists,
    mem_zipIdx_iff_getElem?]
  constructor
  · rintro ⟨m, idx, hm, i, hi, rfl⟩
    exact ⟨m, hm, i, hi, rfl⟩
  · rintro ⟨m, hm, i, hi, hpos⟩
    exact ⟨m, p.2, hm, i, hi, Prod.ext hpos rfl⟩

/-- Every member has a point. -/
theorem mintPoints_ne_nil (hne : members ≠ []) : mintPoints h members ≠ [] := by
  obtain ⟨first, rest, rfl⟩ := exists_cons_of_ne_nil hne
  simp [mintPoints, vnodesPerMember]

/-- A ring with points has an owner for every node. -/
theorem assign_isSome {r : HashRing} (hne : r.points ≠ [])
    (hindexed : ∀ p ∈ r.points, p.2 < r.members.length) (node : NodeId) :
    ∃ m, r.assign h node = some m := by
  have hpos : 0 < r.points.length := length_pos_iff.2 hne
  have hle : r.points.findIdx (fun p => !decide (p.1 < h.nodeHash node)) ≤ r.points.length :=
    findIdx_le_length
  rw [assign]
  generalize r.points.findIdx (fun p => !decide (p.1 < h.nodeHash node)) = found at hle
  have hidx : (if found = r.points.length then 0 else found) < r.points.length := by
    split <;> omega
  rw [getElem?_eq_getElem hidx]
  exact ⟨_, getElem?_eq_getElem (hindexed _ (getElem_mem hidx))⟩

/-- A pool with a member has an owner for every node. -/
theorem ring_isSome (hne : members ≠ []) (node : NodeId) : ∃ m, ring h members node = some m := by
  obtain ⟨first, hfirst⟩ := exists_mem_of_ne_nil members hne
  have hsorted : (OrdSet.ofList members).toList ≠ [] :=
    ne_nil_of_mem (OrdSet.mem_toList.2 (OrdSet.mem_ofList.2 hfirst))
  refine assign_isSome ?_ (fun p hp => ?_) node
  case refine_2 =>
    obtain ⟨m, hm, -⟩ := mem_mintPoints.1 (mem_mergeSort.1 hp)
    exact (List.getElem?_eq_some_iff.1 hm).1
  rw [new, Ne, ← length_eq_zero_iff, length_mergeSort, length_eq_zero_iff]
  exact mintPoints_ne_nil hsorted

/-- The owner of a node is a member. -/
theorem mem_of_ring (ha : ring h members node = some m) : m ∈ members := by
  obtain ⟨p, -, hm⟩ := Option.bind_eq_some_iff.1 ha
  exact OrdSet.mem_ofList.1 (OrdSet.mem_toList.1 (mem_of_getElem? hm))

/-- The order in which positions with a label are met, going round from `start`. -/
def metKey {α : Type} (start : Nat) (p : Nat × α) : Bool ×ₗ Nat ×ₗ α :=
  toLex (decide (p.1 < start), toLex p)

/-- The search ends at the first point met. -/
theorem metKey_le_of_search {points : List (Nat × Nat)} {start : Nat} {p q : Nat × Nat}
    (hsorted : points.Pairwise fun a b => pointLe a b)
    (hp : points[if points.findIdx (fun p => !decide (p.1 < start)) = points.length then 0
      else points.findIdx fun p => !decide (p.1 < start)]? = some p) (hq : q ∈ points) :
    metKey start p ≤ metKey start q := by
  obtain ⟨j, hj, rfl⟩ := List.getElem_of_mem hq
  obtain ⟨hlt, rfl⟩ := List.getElem?_eq_some_iff.1 hp
  have hle : ∀ (i : Nat) (hi : i < points.length), i ≤ j → toLex points[i] ≤ toLex points[j] := by
    intro i hi hij
    rcases hij.lt_or_eq with hij | rfl
    · have := pairwise_iff_getElem.1 hsorted i j hi hj hij
      simpa [pointLe, Prod.Lex.toLex_le_toLex] using this
    · exact le_rfl
  rw [metKey, metKey, Prod.Lex.toLex_le_toLex]
  by_cases hend : points.findIdx (fun p => !decide (p.1 < start)) = points.length
  · -- All points are before the start, so the ring begins again at the first.
    have hall := findIdx_eq_length.1 hend
    simp only [hend, if_true]
    refine .inr ⟨?_, hle 0 _ (Nat.zero_le j)⟩
    have h0 := hall _ (getElem_mem (by omega : 0 < points.length))
    have hj := hall _ (getElem_mem hj)
    simp_all
  · simp only [hend, if_false] at hlt ⊢
    have hfound : ¬ points[points.findIdx fun p => !decide (p.1 < start)].1 < start := by
      simpa using findIdx_getElem (w := hlt)
    by_cases hbefore : points[j].1 < start
    · exact .inl (by simp only [hfound, hbefore]; decide)
    · refine .inr ⟨by simp only [hfound, hbefore], hle _ hlt ?_⟩
      refine le_of_not_gt fun hearlier => hbefore ?_
      simpa using not_of_lt_findIdx hearlier

/-- The owner of a node has the first point met. -/
theorem exists_first_point (ha : ring h members node = some m) :
    ∃ i < vnodesPerMember, ∀ m' ∈ members, ∀ j < vnodesPerMember,
      metKey (h.nodeHash node) (h.vnodePoint m i, m)
        ≤ metKey (h.nodeHash node) (h.vnodePoint m' j, m') := by
  obtain ⟨p, hp, hm⟩ := Option.bind_eq_some_iff.1 ha
  have hmem := mem_mergeSort.1 (mem_of_getElem? hp)
  obtain ⟨m₁, hm₁, i, hi, hpos⟩ := mem_mintPoints.1 hmem
  obtain rfl := Option.some.inj (hm₁.symm.trans hm)
  refine ⟨i, hi, fun m' hm' j hj => ?_⟩
  obtain ⟨idx, hidx⟩ := getElem?_of_mem (OrdSet.mem_toList.2 (OrdSet.mem_ofList.2 hm'))
  have hsorted : ((mintPoints h (OrdSet.ofList members).toList).mergeSort pointLe).Pairwise
      fun a b => pointLe a b :=
    pairwise_mergeSort (fun a b c => by simp only [pointLe]; grind)
      (fun a b => by simp only [pointLe]; grind) _
  have hpoint : (h.vnodePoint m' j, idx) ∈ mintPoints h (OrdSet.ofList members).toList :=
    mem_mintPoints.2 ⟨m', hidx, j, hj, rfl⟩
  have hle := metKey_le_of_search hsorted hp (mem_mergeSort.2 hpoint)
  -- The members are sorted, so their places are in the order of their names.
  have hplace : p.2 ≤ idx → m₁ ≤ m' := by
    obtain ⟨hlt, rfl⟩ := List.getElem?_eq_some_iff.1 hm₁
    obtain ⟨hlt', rfl⟩ := List.getElem?_eq_some_iff.1 hidx
    exact (OrdSet.ofList members).sorted.getElem_le_getElem_iff.2
  simp only [metKey, Prod.Lex.toLex_le_toLex, hpos] at hle ⊢
  exact hle.imp_right fun h => ⟨h.1, h.2.imp_right fun h => ⟨h.1, hplace h.2⟩⟩

theorem ring_eq_of_first {i : Nat} (hi : i < vnodesPerMember) (hm : m ∈ members)
    (hfirst : ∀ m' ∈ members, ∀ j < vnodesPerMember,
      metKey (h.nodeHash node) (h.vnodePoint m i, m)
        ≤ metKey (h.nodeHash node) (h.vnodePoint m' j, m')) : ring h members node = some m := by
  obtain ⟨m', hm'⟩ := ring_isSome (ne_nil_of_mem hm) node
  obtain ⟨j, hj, hfirst'⟩ := exists_first_point hm'
  have heq := le_antisymm (hfirst m' (mem_of_ring hm') j hj) (hfirst' m hm i hi)
  obtain rfl : m = m' := by simpa [metKey] using congrArg (fun k => (ofLex (ofLex k).2).2) heq
  exact hm'

/-- With fewer members, a node stays where it is as long as its owner stays. -/
theorem ring_eq_of_subset {members' : List PollerId} (hsub : members' ⊆ members)
    (howner : ∀ m, ring h members node = some m → m ∈ members') :
    ring h members' node = ring h members node := by
  by_cases hne : members = []
  · subst hne
    rw [subset_nil.1 hsub]
  · obtain ⟨m, hm⟩ := ring_isSome (h := h) hne node
    obtain ⟨i, hi, hfirst⟩ := exists_first_point hm
    rw [hm]
    exact ring_eq_of_first hi (howner m hm) fun m' hm' => hfirst m' (hsub hm')

/-- The ring moves the minimum. Without a member, a node of another member stays where it is. So a
member that is added takes its nodes and moves no others. The owner is a matter of the set of
members. -/
theorem ring_moves_minimum (h : RingHash) (members : List PollerId) (m : PollerId) (node : NodeId) :
    (ring h members node ≠ some m →
      ring h (members.filter (· ≠ m)) node = ring h members node) ∧
    (ring h (m :: members) node = some m ∨ ring h (m :: members) node = ring h members node) ∧
    ∀ members' : List PollerId, (∀ m', m' ∈ members' ↔ m' ∈ members) →
      ring h members' node = ring h members node := by
  refine ⟨fun hne => ring_eq_of_subset (List.filter_subset_self _) fun owner ha => ?_, ?_,
    fun members' hmem => ring_eq_of_subset (fun m' => (hmem m').1) fun owner ha =>
      (hmem owner).2 (mem_of_ring ha)⟩
  · have howner : owner ≠ m := fun heq => hne (heq ▸ ha)
    simp [mem_of_ring ha, howner]
  · refine or_iff_not_imp_left.2 fun hne => .symm ?_
    refine ring_eq_of_subset (List.subset_cons_self ..) fun owner ha => ?_
    exact (List.mem_cons.1 (mem_of_ring ha)).resolve_left fun heq => hne (heq ▸ ha)

/-- Two members, each with all its points in one place: when one goes, the nodes of the other stay.
-/
theorem ring_moves_minimum_two :
    let h : RingHash := ⟨fun m _ => m, fun n => n⟩
    ring h [0, 1] 1 = some 1 ∧ ring h [1] 1 = some 1 := by
  intro h
  have ha : ring h [0, 1] 1 = some 1 := by
    refine ring_eq_of_first (i := 0) (by decide) (by simp) fun m' hm' _ _ => ?_
    show metKey 1 (1, 1) ≤ metKey 1 (m', m')
    revert m'
    decide
  exact ⟨ha, ((ring_moves_minimum h [0, 1] 0 1).1 (by simp [ha])).trans ha⟩

end HashRing

namespace Coordinator

variable {Spec : Type} [JobSpec Spec] {c d : Coordinator} {ring : Ring} {pool : PoolName}
  {now : Instant} {me : PollerId} {node : NodeId} {e : PollerEntry}
  {desired : ExtTreeMap NodeId (List Spec)} {plan : Plan Spec}

/-! ### What a reconcile leaves as it is -/

/-- What a reconcile reads of the register. -/
def registered (c : Coordinator) (m : PollerId) : Option (PoolName × Instant × List Cap) :=
  (c.pollers[m]?).map fun e => (e.pool, e.lastSeen, e.caps)

theorem commitMember_kept (plan : Plan Spec) (c : Coordinator) (k : PollerId) :
    (commitMember plan c k).1.registered = c.registered := by
  rcases commitMember_cases plan c k with h | ⟨entry, entry', msgs, hentry, hsync, h⟩
  · rw [h]
  · funext m
    obtain ⟨rfl, -⟩ := syncMember_cases hsync
    rw [h]
    by_cases hk : k = m
    · subst hk
      simp [registered, hentry]
    · simp [registered, ExtTreeMap.getElem?_insert, hk]

theorem reconcilePool_kept (ring : Ring) (c : Coordinator) (pool : PoolName)
    (desired : ExtTreeMap NodeId (List Spec)) (now : Instant) :
    (c.reconcilePool ring pool desired now).1.registered = c.registered := by
  rw [reconcilePool]
  split
  · rfl
  · exact emitAll_frame _ (fun c k _ => commitMember_kept _ c k) c

theorem isLive_eq (now : Instant) (me : PollerId) :
    c.isLive now me = (c.registered me).any fun r => decide (now - r.2.1 < offlineAfter) := by
  rw [isLive, registered]
  cases c.pollers[me]? <;> rfl

omit [JobSpec Spec] in
theorem mem_liveMembers_iff :
    me ∈ c.liveMembers pool now ↔ ∃ r, c.registered me = some r ∧ r.1 = pool ∧
      now - r.2.1 < offlineAfter := by
  simp [mem_liveMembers, registered, isOnline]

/-- The members a reconcile sees depend on the register only. -/
theorem liveMembers_congr (h : c.registered = d.registered) (pool : PoolName) (now : Instant) :
    c.liveMembers pool now = d.liveMembers pool now := by
  refine (liveMembers_sorted c pool now).eq_of_mem_iff (liveMembers_sorted d pool now) ?_
  intro m
  rw [mem_liveMembers_iff, mem_liveMembers_iff, h]

theorem livePools_iff : pool ∈ c.livePools now ↔ c.liveMembers pool now ≠ [] := by
  rw [mem_livePools]
  constructor
  · rintro ⟨m, hm⟩
    exact ne_nil_of_mem (mem_liveMembers.2 hm)
  · intro hne
    obtain ⟨m, hm⟩ := exists_mem_of_ne_nil _ hne
    exact ⟨m, mem_liveMembers.1 hm⟩

/-! ### What a reconcile publishes -/

theorem publishes_eq (me : PollerId) (node : NodeId) :
    c.publishes me node = (slotOf me c).2.any fun set => decide (node ∈ set) := rfl

variable {target : ExtTreeMap NodeId (List Spec)}

theorem mem_fingerprints : node ∈ fingerprints target ↔ node ∈ target := by
  rw [fingerprints, ExtTreeMap.mem_map]

/-- When nothing is sent, the baseline already has the nodes of the target. -/
theorem syncMember_none {epoch : Uuid} {prev : Option (ExtTreeMap NodeId Nat)}
    (h : syncMember epoch pool me target e prev = none) :
    (prev.any fun set => decide (node ∈ set)) = true ↔ node ∈ target := by
  have hnothing : upserted prev (fingerprints target) = [] ∧
      removed prev (fingerprints target) = [] := by
    simp only [syncMember] at h
    split at h
    next hchanged =>
      exact ⟨length_eq_zero_iff.1 (by omega), length_eq_zero_iff.1 (by omega)⟩
    next => split at h <;> simp at h
  obtain ⟨hups, hremoved⟩ := hnothing
  rw [← show node ∈ fingerprints target ↔ node ∈ target from mem_fingerprints]
  constructor
  · intro hprev
    obtain ⟨set, rfl, hset⟩ := (Option.any_eq_true _ _).1 hprev
    by_contra hnot
    have hmem : node ∈ removed (some set) (fingerprints target) := by
      simpa [removed, hnot] using hset
    rw [hremoved] at hmem
    simp at hmem
  · intro hnode
    obtain ⟨fp, hfp⟩ := Option.isSome_iff_exists.1 (mem_iff_isSome_getElem?.1 hnode)
    by_contra hnot
    have hmem : node ∈ upserted prev (fingerprints target) := by
      refine mem_map.2 ⟨(node, fp), mem_filter.2 ⟨?_, ?_⟩, rfl⟩
      · exact ExtTreeMap.mem_toList_iff_getElem?_eq_some.2 hfp
      · refine decide_eq_true fun hsame => hnot ?_
        obtain ⟨set, rfl, hset⟩ := Option.bind_eq_some_iff.1 hsame
        have hmem : node ∈ set := of_getElem?_eq_some hset
        simpa using hmem
    rw [hups] at hmem
    simp at hmem

/-- After the second section, a registered member has the nodes of its target. -/
theorem publishes_commitPlan (hnodup : plan.members.Nodup) (hme : me ∈ plan.members)
    (he : c.pollers[me]? = some e) :
    (c.commitPlan plan).1.publishes me node = true ↔ node ∈ plan.targets me := by
  obtain ⟨hslot, -⟩ := (commitMember_local plan).emitAll_of_mem (by simpa using hnodup) hme
    (s := c) trivial
  have hslot : slotOf me (c.commitPlan plan).1 = slotOf me (commitMember plan c me).1 := hslot
  rw [publishes_eq, hslot, ← publishes_eq]
  simp only [commitMember, he, publishes]
  cases hsync : syncMember c.epoch plan.pool me (plan.targets me) e c.published[me]? with
  | none => exact syncMember_none hsync
  | some sent => simp [mem_fingerprints]

theorem mem_targetOf {members : List PollerId} {caps : List Cap} :
    node ∈ targetOf ring members caps desired me ↔
      node ∈ desired ∧ ring members node = some me := by
  rw [targetOf, mem_ofList, contains_iff_mem, mem_map]
  constructor
  · rintro ⟨kept, hkept, rfl⟩
    obtain ⟨⟨n, specs⟩, hentry, hif⟩ := mem_filterMap.1 hkept
    simp only at hif
    split at hif
    next howner =>
      cases hif
      refine ⟨?_, howner⟩
      rw [← ExtTreeMap.mem_keys, ← map_fst_toList_eq_keys]
      exact mem_map.2 ⟨(n, specs), hentry, rfl⟩
    next => simp at hif
  · rintro ⟨hnode, howner⟩
    rw [← ExtTreeMap.mem_keys, ← map_fst_toList_eq_keys] at hnode
    obtain ⟨entry, hentry, rfl⟩ := mem_map.1 hnode
    exact ⟨_, mem_filterMap.2 ⟨entry, hentry, if_pos howner⟩, rfl⟩

/-- After a reconcile of its pool, a live poller has its part of the pool's nodes. -/
theorem publishes_reconcilePool (hme : me ∈ c.liveMembers pool now) :
    (c.reconcilePool ring pool desired now).1.publishes me node = true ↔
      node ∈ desired ∧ ring (c.liveMembers pool now) node = some me := by
  obtain ⟨e, he, -⟩ := mem_liveMembers.1 hme
  rw [reconcilePool]
  cases hplan : planPool ring c pool desired now with
  | none =>
    simp only [planPool, List.isEmpty_iff] at hplan
    split at hplan
    next hnone => simp [hnone] at hme
    next => simp at hplan
  | some plan =>
    have htargets : plan.targets me
        = targetOf ring (c.liveMembers pool now) ((c.pollers[me]?).elim [] (·.caps)) desired
          me := by
      simp only [planPool] at hplan
      split at hplan
      next => simp at hplan
      next => rw [← Option.some.inj hplan]
    have hmem : me ∈ plan.members := by
      rw [(planPool_members hplan).2]
      exact hme
    rw [publishes_commitPlan (planPool_nodup hplan) hmem he, htargets, mem_targetOf]

/-- A reconcile leaves what core keeps about a poller that is not a live member of the pool. -/
theorem reconcilePool_slot (hme : me ∉ c.liveMembers pool now) (ring : Ring)
    (desired : ExtTreeMap NodeId (List Spec)) :
    slotOf me (c.reconcilePool ring pool desired now).1 = slotOf me c := by
  rw [reconcilePool]
  cases hplan : planPool ring c pool desired now with
  | none => rfl
  | some plan =>
    have hout : me ∉ plan.members.map id := by
      rw [map_id, (planPool_members hplan).2]
      exact hme
    exact ((commitMember_local plan).emitAll_of_notMem hout (s := c) trivial).1

/-! ### The calls of a round -/

/-- The calls of a round, one after another. -/
def reconcileCalls (ring : Ring) (c : Coordinator) (now : Instant)
    (calls : List (PoolName × ExtTreeMap NodeId (List Spec))) :
    Coordinator × List (SyncMsg Spec) :=
  emitAll (fun (c : Coordinator) (call : PoolName × ExtTreeMap NodeId (List Spec)) =>
    c.reconcilePool ring call.1 call.2 now) c calls

theorem reconcileCalls_kept (calls : List (PoolName × ExtTreeMap NodeId (List Spec))) :
    (c.reconcileCalls ring now calls).1.registered = c.registered :=
  emitAll_frame _ (fun c call _ => reconcilePool_kept ring c call.1 call.2 now) c

/-- Calls for other pools leave a poller alone. -/
theorem reconcileCalls_slot {calls : List (PoolName × ExtTreeMap NodeId (List Spec))}
    (hme : ∀ call ∈ calls, me ∉ c.liveMembers call.1 now) :
    slotOf me (c.reconcileCalls ring now calls).1 = slotOf me c := by
  have hinv := emitAll_invariant
    (fun (c : Coordinator) (call : PoolName × ExtTreeMap NodeId (List Spec)) =>
      c.reconcilePool ring call.1 call.2 now) (l := calls)
    (P := fun d => d.registered = c.registered ∧ slotOf me d = slotOf me c) ?_ ⟨rfl, rfl⟩ (s := c)
  · exact hinv.2
  · rintro d call hcall ⟨hkept, hslot⟩
    refine ⟨(reconcilePool_kept ring d call.1 call.2 now).trans hkept, ?_⟩
    have hnot : me ∉ d.liveMembers call.1 now := by
      rw [liveMembers_congr hkept]
      exact hme call hcall
    rw [reconcilePool_slot hnot, hslot]

/-- After calls for distinct pools, a live poller has its part of the nodes of its pool. -/
theorem publishes_reconcileCalls {calls : List (PoolName × ExtTreeMap NodeId (List Spec) compare)}
    (hpools : (calls.map (·.1)).Nodup) (hcall : (pool, desired) ∈ calls)
    (hme : me ∈ c.liveMembers pool now) :
    (c.reconcileCalls ring now calls).1.publishes me node = true ↔
      node ∈ desired ∧ ring (c.liveMembers pool now) node = some me := by
  obtain ⟨before, after, rfl⟩ := append_of_mem hcall
  -- The poller is registered in one pool, so the other calls are not about it.
  have hother : ∀ call ∈ before ++ after, me ∉ c.liveMembers call.1 now := by
    intro call hmem hlive
    obtain ⟨r, hr, hrpool, -⟩ := mem_liveMembers_iff.1 hme
    obtain ⟨r', hr', hrpool', -⟩ := mem_liveMembers_iff.1 hlive
    cases hr.symm.trans hr'
    have hne : call.1 ≠ pool := by
      rintro rfl
      have hperm : ((before ++ (call.1, desired) :: after).map (·.1)).Perm
          (call.1 :: (before ++ after).map (·.1)) := (perm_middle).map _
      exact (nodup_cons.1 (hperm.nodup_iff.1 hpools)).1 (mem_map_of_mem hmem)
    exact hne (hrpool'.symm.trans hrpool)
  have hsplit : (c.reconcileCalls ring now (before ++ (pool, desired) :: after)).1
      = (((c.reconcileCalls ring now before).1.reconcilePool ring pool desired now).1.reconcileCalls
          ring now after).1 := by
    simp only [reconcileCalls, emitAll_append, emitAll_cons]
  have hkept : (c.reconcileCalls ring now before).1.registered = c.registered :=
    reconcileCalls_kept before
  have hkept' : ((c.reconcileCalls ring now before).1.reconcilePool ring pool desired
      now).1.registered = c.registered :=
    (reconcilePool_kept ring _ pool desired now).trans hkept
  have hlive : me ∈ (c.reconcileCalls ring now before).1.liveMembers pool now := by
    rw [liveMembers_congr hkept]
    exact hme
  rw [hsplit, publishes_eq, reconcileCalls_slot, ← publishes_eq, publishes_reconcilePool hlive,
    liveMembers_congr hkept]
  intro call hmem
  rw [liveMembers_congr hkept']
  exact hother call (mem_append_right _ hmem)

end Coordinator

end Yagra.Fleet

namespace Yagra.Scheduler

open Std (ExtTreeMap)
open Yagra.Fleet
open Yagra.Lib

variable {Spec : Type}

/-! ### The nodes of a pool -/

namespace Sweep

/-- The nodes in the working set of a pool: those with a check. -/
theorem mem_desiredOf {jobs : Node → Nat → List (Spec × JobKind)} {members : List (Node × Nat)}
    {id : NodeId} :
    id ∈ desiredOf jobs members ↔
      ∃ member ∈ members, member.1.id = id ∧ buildNodeSpecs jobs member.1 member.2 ≠ [] := by
  rw [desiredOf, mem_ofList, List.contains_iff_mem, mem_map]
  constructor
  · rintro ⟨kept, hkept, rfl⟩
    obtain ⟨⟨node, secs⟩, hmember, hif⟩ := mem_filterMap.1 hkept
    simp only [List.isEmpty_iff] at hif
    split at hif
    next => simp at hif
    next hspecs =>
      cases hif
      exact ⟨(node, secs), hmember, rfl, hspecs⟩
  · rintro ⟨⟨node, secs⟩, hmember, rfl, hspecs⟩
    refine ⟨(node.id, buildNodeSpecs jobs node secs),
      mem_filterMap.2 ⟨(node, secs), hmember, ?_⟩, rfl⟩
    exact if_neg (by simpa using hspecs)

variable [JobSpec Spec] {now : Instant} {mode : PoolName → PoolMode} {remaining : PoolName → Nat}
  {jobs : Node → Nat → List (Spec × JobKind)}

theorem servePool_reconciled (g : Gathered Spec) (group : PoolName × List (Node × Nat)) :
    (servePool jobs now mode remaining g group).reconciled = g.reconciled ++
      (if mode group.1 = .workingSet then [(group.1, desiredOf jobs group.2)] else []) := by
  rw [servePool]
  split
  next hmode => simp [hmode]
  next hmode => simp [hmode]
  next hmode =>
    have hd : Dispatched group.1 g (group.2.foldl (dispatchNode jobs now group.1) g) :=
      Dispatched.foldl (dispatchNode_dispatched group.1) g group.2
    simp [hmode, hd.reconciled]

/-- The calls of a round: one for each pool that is served with a working set. -/
theorem foldl_servePool_reconciled (groups : List (PoolName × List (Node × Nat)))
    (g : Gathered Spec) :
    (groups.foldl (servePool jobs now mode remaining) g).reconciled = g.reconciled ++
      (groups.filter fun group => decide (mode group.1 = .workingSet)).map
        fun group => (group.1, desiredOf jobs group.2) := by
  induction groups generalizing g with
  | nil => simp
  | cons group rest ih =>
    rw [List.foldl_cons, ih, servePool_reconciled]
    split <;> simp_all

end Sweep

namespace Rounds

variable [JobSpec Spec]

/-- A round that reads the inventory: the cache does not serve it, a folder map is there, and the
nodes were read. Their ids are distinct. -/
structure Rebuilds (s : Rounds Spec) (reads : Reads Spec) (now : Instant) (resolver : PoolResolver)
    (nodes : List Node) : Prop where
  uncached : s.sweep.servingCache reads.generation (s.core.livePools now) = none
  folders : (reads.poolRows.map PoolResolver.build).or s.sweep.resolver = some resolver
  inventory : reads.nodes = some nodes
  ids : (nodes.map (·.id)).Nodup

/-- The nodes that something else collects, as a round sees them. -/
def collectedElsewhere (s : Sweep Spec) (reads : Reads Spec) : List NodeId :=
  reads.merakiNodeIds.getD s.merakiNodeIds ++ reads.apNodeIds.getD s.apNodeIds

/-- The checks of a node in a round. -/
def specsOf (reads : Reads Spec) (node : Node) : List Spec :=
  Sweep.buildNodeSpecs reads.jobs node (resolveInterval node.profile
    (reads.overrides.getD fun _ => none) (reads.defaultInterval.getD defaultPollIntervalSecs))

/-- A node that the pollers of a pool have to poll. -/
structure PolledFrom (s : Sweep Spec) (reads : Reads Spec) (resolver : PoolResolver)
    (pool : PoolName) (node : Node) : Prop where
  own : node.id ∉ collectedElsewhere s reads
  specs : specsOf reads node ≠ []
  pool : resolver.resolvePool node = pool

variable {s : Rounds Spec} {reads : Reads Spec} {now : Instant} {resolver : PoolResolver}
  {nodes : List Node}

/-- The calls of such a round are for distinct pools, and every live pool is handed its nodes. -/
theorem Rebuilds.calls (h : s.Rebuilds reads now resolver nodes) :
    ((s.outcome reads now).reconciled.map (·.1)).Nodup ∧
    ∀ pool ∈ s.core.livePools now, ∃ desired, (pool, desired) ∈ (s.outcome reads now).reconciled ∧
      ∀ id, id ∈ desired ↔ ∃ node ∈ nodes, node.id = id ∧
        PolledFrom s.sweep reads resolver pool node := by
  have hround : s.outcome reads now = s.sweep.rebuild reads (s.core.livePools now)
      (s.core.poolsLastLive now) now := by
    rw [outcome, Sweep.round, h.uncached]
  simp only [hround, Sweep.rebuild, h.folders, h.inventory, Sweep.gather,
    Sweep.foldl_servePool_reconciled, List.nil_append, List.map_map]
  generalize hresolved : nodes.map (fun node => (node, resolveInterval node.profile
    (reads.overrides.getD fun _ => none) (reads.defaultInterval.getD defaultPollIntervalSecs)))
      = resolved
  generalize hgroups : groupByPool resolved
    (reads.merakiNodeIds.getD s.sweep.merakiNodeIds ++ reads.apNodeIds.getD s.sweep.apNodeIds)
    (s.core.livePools now) resolver = groups
  constructor
  · have hkeys : (groups.toList.map (·.1)).Nodup := by
      rw [map_fst_toList_eq_keys]
      exact ExtTreeMap.distinct_keys.imp fun {a b} hab hEq => hab (by simp [hEq])
    exact hkeys.sublist (List.filter_sublist.map _)
  · intro pool hlive
    have hmem : pool ∈ groups := hgroups ▸ mem_groupByPool_of_live hlive
    obtain ⟨members, hmembers⟩ :=
      Option.isSome_iff_exists.1 (mem_iff_isSome_getElem?.1 hmem)
    refine ⟨Sweep.desiredOf reads.jobs members, mem_map.2 ⟨(pool, members), ?_, rfl⟩, ?_⟩
    · refine mem_filter.2 ⟨ExtTreeMap.mem_toList_iff_getElem?_eq_some.2 hmembers, ?_⟩
      exact decide_eq_true (poolMode_eq_workingSet.2 hlive)
    · intro id
      have hgroup : members = resolved.filter
          (ofPool (collectedElsewhere s.sweep reads) resolver pool) := by
        have hlookup : ((groupByPool resolved (collectedElsewhere s.sweep reads)
            (s.core.livePools now) resolver)[pool]?).getD []
              = resolved.filter (ofPool (collectedElsewhere s.sweep reads) resolver pool) :=
          getD_groupByPool resolved (s.core.livePools now)
        rw [collectedElsewhere, hgroups, hmembers] at hlookup
        exact hlookup
      rw [Sweep.mem_desiredOf, hgroup]
      constructor
      · rintro ⟨member, hmember, hid, hspecs⟩
        obtain ⟨hmember, hof⟩ := mem_filter.1 hmember
        obtain ⟨node, hnode, rfl⟩ := mem_map.1 (hresolved ▸ hmember)
        simp only [ofPool, Bool.and_eq_true, decide_eq_true_eq] at hof
        exact ⟨node, hnode, hid, hof.1, hspecs, hof.2⟩
      · rintro ⟨node, hnode, hid, hpolled⟩
        refine ⟨(node, resolveInterval node.profile (reads.overrides.getD fun _ => none)
          (reads.defaultInterval.getD defaultPollIntervalSecs)),
          mem_filter.2 ⟨hresolved ▸ mem_map.2 ⟨node, hnode, rfl⟩, ?_⟩, hid,
          hpolled.specs⟩
        simp only [ofPool, Bool.and_eq_true, decide_eq_true_eq]
        exact ⟨hpolled.own, hpolled.pool⟩

/-- What a live poller has been sent after such a round: the nodes of its pool that the ring gives
it. -/
theorem Rebuilds.publishes (h : s.Rebuilds reads now resolver nodes) {ring : Ring} {me : PollerId}
    {pool : PoolName} (hme : me ∈ s.core.liveMembers pool now) {id : NodeId} :
    (s.step ring (.round reads now)).core.publishes me id = true ↔
      (∃ node ∈ nodes, node.id = id ∧ PolledFrom s.sweep reads resolver pool node) ∧
        ring (s.core.liveMembers pool now) id = some me := by
  obtain ⟨hpools, hcalls⟩ := h.calls
  have hlive : pool ∈ s.core.livePools now :=
    Coordinator.livePools_iff.2 (ne_nil_of_mem hme)
  obtain ⟨desired, hcall, hdesired⟩ := hcalls pool hlive
  rw [← hdesired id]
  exact Coordinator.publishes_reconcileCalls hpools hcall hme

theorem step_registered (ring : Ring) (s : Rounds Spec) (reads : Reads Spec) (now : Instant) :
    (s.step ring (.round reads now)).core.registered = s.core.registered :=
  Coordinator.reconcileCalls_kept (s.outcome reads now).reconciled

/-- A live poller is a live member of its pool, before the round as after it. -/
theorem exists_pool_of_isLive {ring : Ring} {me : PollerId}
    (hlive : (s.step ring (.round reads now)).core.isLive now me = true) :
    ∃ pool, me ∈ s.core.liveMembers pool now := by
  rw [Coordinator.isLive_eq, step_registered] at hlive
  obtain ⟨r, hr, honline⟩ := (Option.any_eq_true _ _).1 hlive
  exact ⟨r.1, Coordinator.mem_liveMembers_iff.2 ⟨r, hr, rfl, of_decide_eq_true honline⟩⟩

/-- After every round that reads the inventory, in whatever state the round finds the coordinator
and the scheduler: a node that has to be polled from a pool with a live poller is in the published
set of exactly one live poller, the member of the pool that the ring names. `ownerOf` finds it in
whatever order it looks. And no live poller has been sent any other node. -/
theorem node_has_one_poller (h : RingHash) (s : Rounds Spec) (reads : Reads Spec) (now : Instant)
    (resolver : PoolResolver) (nodes : List Node) (hround : s.Rebuilds reads now resolver nodes) :
    let after := (s.step (HashRing.ring h) (.round reads now)).core
    (∀ node ∈ nodes, ∀ pool ∈ s.core.livePools now, PolledFrom s.sweep reads resolver pool node →
      ∃ m ∈ s.core.liveMembers pool now,
        (HashRing.new h (s.core.liveMembers pool now)).assign h node.id = some m ∧
        after.isLive now m = true ∧
        (∀ m', after.isLive now m' = true → (after.publishes m' node.id = true ↔ m' = m)) ∧
        ∀ order, order.Perm after.published.keys → after.ownerOf order node.id now = some m) ∧
    ∀ m id, after.isLive now m = true → after.publishes m id = true →
      ∃ node ∈ nodes, node.id = id ∧ ∃ pool ∈ s.core.livePools now,
        PolledFrom s.sweep reads resolver pool node := by
  intro after
  constructor
  · intro node hnode pool hpool hpolled
    obtain ⟨m, hm⟩ := HashRing.ring_isSome (h := h) (Coordinator.livePools_iff.1 hpool) node.id
    have hmember : m ∈ s.core.liveMembers pool now := HashRing.mem_of_ring hm
    have hpublished : after.publishes m node.id = true :=
      (hround.publishes hmember).2 ⟨⟨node, hnode, rfl, hpolled⟩, hm⟩
    have hlive : after.isLive now m = true := by
      obtain ⟨r, hr, -, honline⟩ := Coordinator.mem_liveMembers_iff.1 hmember
      rw [Coordinator.isLive_eq, step_registered, hr]
      exact decide_eq_true honline
    have hunique : ∀ m', after.isLive now m' = true →
        (after.publishes m' node.id = true ↔ m' = m) := by
      intro m' hlive'
      constructor
      · intro hpub
        obtain ⟨pool', hmember'⟩ := exists_pool_of_isLive hlive'
        obtain ⟨⟨node', hnode', hid, hpolled'⟩, hring⟩ := (hround.publishes hmember').1 hpub
        -- The node is of one pool, and the ring of the pool names one member.
        obtain rfl := List.inj_on_of_nodup_map hround.ids hnode' hnode hid
        obtain rfl := hpolled'.pool.symm.trans hpolled.pool
        exact Option.some.inj (hring.symm.trans hm)
      · rintro rfl
        exact hpublished
    refine ⟨m, hmember, hm, hlive, hunique, fun order horder => ?_⟩
    have hkey : m ∈ order := by
      rw [horder.mem_iff, mem_keys, mem_iff_isSome_getElem?]
      obtain ⟨set, hset, -⟩ := (Option.any_eq_true _ _).1 hpublished
      rw [hset]
      rfl
    cases hfound : after.ownerOf order node.id now with
    | none =>
      have hnone := List.find?_eq_none.1 hfound m hkey
      simp [hpublished, hlive] at hnone
    | some m' =>
      have hsome := List.find?_some hfound
      rw [Bool.and_eq_true] at hsome
      rw [(hunique m' hsome.2).1 hsome.1]
  · intro m id hlive hpub
    obtain ⟨pool, hmember⟩ := exists_pool_of_isLive hlive
    obtain ⟨⟨node, hnode, hid, hpolled⟩, -⟩ := (hround.publishes hmember).1 hpub
    exact ⟨node, hnode, hid, pool, Coordinator.livePools_iff.2 (ne_nil_of_mem hmember), hpolled⟩

/-- Two pollers of a pool with one node, in a round after their first beats. -/
theorem node_has_one_poller_of_two :
    let s := [firstBeat 7, firstBeat 8].foldl (step (HashRing.ring ⟨(· + ·), id⟩)) (start 0 0 [])
    let after := (s.step (HashRing.ring ⟨(· + ·), id⟩) (.round oneNode 0)).core
    ∃ m ∈ s.core.liveMembers "hq" 0,
      ∀ m', after.isLive 0 m' = true → (after.publishes m' 1 = true ↔ m' = m) := by
  intro s after
  have hround : s.Rebuilds oneNode 0 (PoolResolver.build []) [⟨1, none, some "hq", none⟩] :=
    ⟨by decide +kernel, rfl, rfl, by decide⟩
  have hpolled :
      PolledFrom s.sweep oneNode (PoolResolver.build []) "hq" ⟨1, none, some "hq", none⟩ :=
    ⟨by decide +kernel, by decide, by decide +kernel⟩
  obtain ⟨m, hmember, -, -, hunique, -⟩ := (node_has_one_poller ⟨(· + ·), id⟩ s oneNode 0
    (PoolResolver.build []) _ hround).1 _ List.mem_cons_self "hq" (by decide +kernel) hpolled
  exact ⟨m, hmember, hunique⟩

end Rounds

end Yagra.Scheduler
