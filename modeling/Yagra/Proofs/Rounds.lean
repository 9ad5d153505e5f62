import Yagra.Proofs.Coordinator
import Yagra.Scheduler.Sweep

/-!
# `Yagra.Proofs.Rounds`: which pools a round of the scheduler serves

A round that reads the inventory hands the coordinator exactly the live pools (`rebuild_spec`):
it groups the nodes under every live pool, and serves a pool with a working set when it is live.
If it fills the cache, the pools in the cache are the pools that were live then (`Cached`).

A round that uses the cache serves the pools in it. They are all live, but they need not be all
the live pools. A poller can join, or be moved by the inventory to, a pool that has no node. Such
a pool was not live when the cache was filled, and it changes no configuration. The poller then
keeps its old checks until some configuration changes. `foreseen` is the condition that this does
not happen: a round that uses the cache finds no pool live that was not live when the cache was
filled. `round_serves_live_pools` says that a round serves every live pool exactly then.
-/

set_option autoImplicit false

namespace Yagra.Scheduler

open Std (ExtTreeMap)
open Yagra.Fleet List Std.ExtTreeMap
open Yagra.Lib
open Coordinator (snapshotOf)

variable {Spec : Type}

/-! ### Grouping -/

variable {pool : PoolName}
variable {collectedElsewhere : List NodeId} {live : List PoolName} {resolver : PoolResolver}

theorem mem_foldl_addToPool {groups : ExtTreeMap PoolName (List (Node × Nat))} (h : pool ∈ groups)
    (resolved : List (Node × Nat)) :
    pool ∈ resolved.foldl (addToPool collectedElsewhere resolver) groups := by
  refine foldlRecOn (motive := fun groups => pool ∈ groups) resolved _ h ?_
  intro groups h member _
  rw [addToPool]
  split
  · exact h
  · exact mem_insert.2 (.inr h)

/-- Every live pool is grouped, also one without a node. -/
theorem mem_groupByPool_of_live {resolved : List (Node × Nat)} (h : pool ∈ live) :
    pool ∈ groupByPool resolved collectedElsewhere live resolver := by
  refine mem_foldl_addToPool ?_ resolved
  have hseed : ∀ (live : List PoolName) (groups : ExtTreeMap PoolName (List (Node × Nat))),
      pool ∈ live ∨ pool ∈ groups →
      pool ∈ live.foldl (fun groups pool => groups.insert pool ((groups[pool]?).getD []))
        groups := by
    intro live
    induction live with
    | nil => simp
    | cons first rest ih =>
      intro groups hpool
      refine ih _ ?_
      rw [mem_insert, Std.compare_eq_iff_eq, mem_cons] at *
      rcases hpool with (rfl | hrest) | hgroups
      · exact .inr (.inl rfl)
      · exact .inl hrest
      · exact .inr (.inr hgroups)
  exact hseed live ∅ (.inl h)

/-- The nodes of a pool that are polled by it, in the order of the inventory. -/
def ofPool (collectedElsewhere : List NodeId) (resolver : PoolResolver) (pool : PoolName)
    (member : Node × Nat) : Bool :=
  decide (member.1.id ∉ collectedElsewhere) && decide (resolver.resolvePool member.1 = pool)

theorem getD_addToPool (groups : ExtTreeMap PoolName (List (Node × Nat))) (member : Node × Nat) :
    ((addToPool collectedElsewhere resolver groups member)[pool]?).getD []
      = (groups[pool]?).getD [] ++
        (if ofPool collectedElsewhere resolver pool member then [member] else []) := by
  simp only [addToPool, ofPool]
  split
  next hcollected => simp [hcollected]
  next hcollected =>
    by_cases hpool : resolver.resolvePool member.1 = pool
    · subst hpool
      simp [hcollected]
    · simp [ExtTreeMap.getElem?_insert, hpool]

/-- The group of a pool. -/
theorem getD_groupByPool (resolved : List (Node × Nat)) (live : List PoolName) :
    ((groupByPool resolved collectedElsewhere live resolver)[pool]?).getD []
      = resolved.filter (ofPool collectedElsewhere resolver pool) := by
  have hnodes : ∀ (resolved : List (Node × Nat)) (groups : ExtTreeMap PoolName (List (Node × Nat))),
      ((resolved.foldl (addToPool collectedElsewhere resolver) groups)[pool]?).getD []
        = (groups[pool]?).getD [] ++ resolved.filter (ofPool collectedElsewhere resolver pool) := by
    intro resolved
    induction resolved with
    | nil => simp
    | cons member rest ih =>
      intro groups
      rw [foldl_cons, ih, getD_addToPool, filter_cons]
      split <;> simp
  have hseed : ∀ (live : List PoolName) (groups : ExtTreeMap PoolName (List (Node × Nat))),
      (groups[pool]?).getD [] = [] →
      ((live.foldl (fun groups pool => groups.insert pool ((groups[pool]?).getD [])) groups)[pool]?
        ).getD [] = [] := by
    intro live
    induction live with
    | nil => exact fun _ h => h
    | cons first rest ih =>
      intro groups hgroups
      refine ih _ ?_
      by_cases hfirst : first = pool
      · subst hfirst
        simpa using hgroups
      · simpa [ExtTreeMap.getElem?_insert, hfirst] using hgroups
  rw [groupByPool, hnodes, hseed live ∅ (by simp), nil_append]

/-! ### Serving the pools of a round -/

theorem poolMode_eq_workingSet {registered : List PoolName} {sinceLastLive : Option Nat}
    {sinceStart : Nat} :
    poolMode pool live sinceLastLive sinceStart registered = .workingSet ↔ pool ∈ live := by
  rw [poolMode]
  split
  next hlive => simp [hlive]
  next hlive =>
    split
    · simp [hlive]
    · split <;> simp [hlive]

/-- The pools in the list have been served. -/
structure Served (mode : PoolName → PoolMode) (pools : List PoolName) (g : Gathered Spec) :
    Prop where
  reconciled : ∀ pool, pool ∈ g.reconciled.map (·.1) ↔ pool ∈ pools ∧ mode pool = .workingSet
  desired : ∀ pool, pool ∈ g.desiredByPool ↔ pool ∈ g.reconciled.map (·.1)
  published : ∀ job ∈ g.published, mode job.pool = .legacy
  legacy : g.legacyPools = 0 → ∀ pool ∈ pools, mode pool ≠ .legacy
  waiting : g.waitingPools = 0 → ∀ pool ∈ pools, mode pool ≠ .wait

/-- Jobs of a pool were published, and nothing was handed to the coordinator. -/
structure Dispatched (pool : PoolName) (g g' : Gathered Spec) : Prop where
  reconciled : g'.reconciled = g.reconciled
  desired : g'.desiredByPool = g.desiredByPool
  legacy : g'.legacyPools = g.legacyPools
  waiting : g'.waitingPools = g.waitingPools
  published : ∀ job ∈ g'.published, job ∈ g.published ∨ job.pool = pool

theorem Dispatched.refl (pool : PoolName) (g : Gathered Spec) : Dispatched pool g g :=
  ⟨rfl, rfl, rfl, rfl, fun _ h => .inl h⟩

theorem Dispatched.trans {g₁ g₂ g₃ : Gathered Spec} (h : Dispatched pool g₁ g₂)
    (h' : Dispatched pool g₂ g₃) : Dispatched pool g₁ g₃ where
  reconciled := h'.reconciled.trans h.reconciled
  desired := h'.desired.trans h.desired
  legacy := h'.legacy.trans h.legacy
  waiting := h'.waiting.trans h.waiting
  published := fun job hjob => (h'.published job hjob).elim (h.published job) .inr

/-- A loop of such steps is one. -/
theorem Dispatched.foldl {α : Type} {f : Gathered Spec → α → Gathered Spec}
    (hf : ∀ g a, Dispatched pool g (f g a)) (g : Gathered Spec) (l : List α) :
    Dispatched pool g (l.foldl f g) :=
  foldlRecOn l f (Dispatched.refl pool g) fun g' h a _ => h.trans (hf g' a)

variable [JobSpec Spec]

namespace Sweep

variable {now : Instant} {mode : PoolName → PoolMode} {remaining : PoolName → Nat}
  {jobs : Node → Nat → List (Spec × JobKind)}

theorem dispatchJob_dispatched (pool : PoolName) (node : Node) (secs : Nat) (g : Gathered Spec)
    (job : Spec × JobKind) : Dispatched pool g (dispatchJob now pool node secs g job) := by
  have hpublished : ∀ j ∈ g.published ++ [⟨pool, node.id, job.1, job.2⟩],
      j ∈ g.published ∨ j.pool = pool :=
    forall_mem_append.2 ⟨fun _ => .inl, forall_mem_singleton.2 (.inr rfl)⟩
  simp only [dispatchJob]
  split
  · split
    · exact ⟨rfl, rfl, rfl, rfl, hpublished⟩
    · exact Dispatched.refl pool g
  · exact ⟨rfl, rfl, rfl, rfl, hpublished⟩

theorem dispatchNode_dispatched (pool : PoolName) (g : Gathered Spec) (member : Node × Nat) :
    Dispatched pool g (dispatchNode jobs now pool g member) := by
  rw [dispatchNode]
  split
  · refine Dispatched.trans ?_ (Dispatched.foldl (dispatchJob_dispatched pool _ _) _ _)
    exact ⟨rfl, rfl, rfl, rfl, fun _ h => .inl h⟩
  · exact ⟨rfl, rfl, rfl, rfl, fun _ h => .inl h⟩

/-- Serving one more pool. -/
theorem servePool_served {pools : List PoolName} {g : Gathered Spec} (h : Served mode pools g)
    (group : PoolName × List (Node × Nat)) :
    Served mode (pools ++ [group.1]) (servePool jobs now mode remaining g group) := by
  rw [servePool]
  split
  next hmode =>
    refine ⟨?_, ?_, h.published, ?_, ?_⟩
    · intro pool
      simp only [map_append, map_cons, map_nil, mem_append, mem_singleton,
        h.reconciled]
      grind
    · intro pool
      rw [mem_insert, h.desired]
      grind
    · exact fun hzero => forall_mem_append.2 ⟨h.legacy hzero, by simp [hmode]⟩
    · exact fun hzero => forall_mem_append.2 ⟨h.waiting hzero, by simp [hmode]⟩
  next hmode =>
    refine ⟨?_, h.desired, h.published, ?_, fun hzero => absurd hzero (Nat.succ_ne_zero _)⟩
    · intro pool
      rw [h.reconciled]
      grind
    · exact fun hzero => forall_mem_append.2 ⟨h.legacy hzero, by simp [hmode]⟩
  next hmode =>
    have hd : Dispatched group.1 g (group.2.foldl (dispatchNode jobs now group.1) g) :=
      Dispatched.foldl (dispatchNode_dispatched group.1) g group.2
    refine ⟨?_, ?_, ?_, fun hzero => absurd hzero (Nat.succ_ne_zero _), ?_⟩
    · intro pool
      rw [hd.reconciled, h.reconciled]
      grind
    · intro pool
      rw [hd.reconciled, hd.desired, h.desired]
    · intro job hjob
      rcases hd.published job hjob with hold | hpool
      · exact h.published job hold
      · rw [hpool, hmode]
    · intro hzero
      exact forall_mem_append.2 ⟨h.waiting (hd.waiting ▸ hzero), by simp [hmode]⟩

theorem foldl_servePool_served {g : Gathered Spec} (h : Served mode [] g)
    (groups : List (PoolName × List (Node × Nat))) :
    Served mode (groups.map (·.1)) (groups.foldl (servePool jobs now mode remaining) g) := by
  induction groups using reverseRecOn with
  | nil => exact h
  | append_singleton before group ih =>
    rw [foldl_append, map_append]
    exact servePool_served ih group

/-! ### A round -/

section
variable {s : Sweep Spec} {reads : Reads Spec} {live : List PoolName}
  {lastLive : PoolName → Option Nat}

/-- When every live pool is grouped, exactly the live pools are handed over, no job is published
for them, and a round with no pool served otherwise has only them. -/
theorem gather_spec {groups : ExtTreeMap PoolName (List (Node × Nat))}
    (hgroups : ∀ pool ∈ live, pool ∈ groups) :
    let g := s.gather jobs live lastLive now groups
    (∀ pool, pool ∈ g.reconciled.map (·.1) ↔ pool ∈ live) ∧
    (∀ job ∈ g.published, job.pool ∉ live) ∧
    (∀ pool, pool ∈ g.desiredByPool ↔ pool ∈ live) := by
  intro g
  have hserved : Served
      (fun pool => poolMode pool live (lastLive pool) (now - s.started) s.registered)
      (groups.toList.map (·.1)) g :=
    foldl_servePool_served ⟨by simp, by simp, by simp, by simp, by simp⟩ groups.toList
  have hreconciled : ∀ pool, pool ∈ g.reconciled.map (·.1) ↔ pool ∈ live := by
    intro pool
    rw [hserved.reconciled, poolMode_eq_workingSet, map_fst_toList_eq_keys,
      ExtTreeMap.mem_keys]
    exact ⟨fun h => h.2, fun h => ⟨hgroups pool h, h⟩⟩
  refine ⟨hreconciled, ?_, fun pool => (hserved.desired pool).trans (hreconciled pool)⟩
  intro job hjob hlive
  have hmode := hserved.published job hjob
  rw [poolMode_eq_workingSet.2 hlive] at hmode
  simp at hmode

/-- A round that reads the inventory hands over exactly the live pools, publishes no job for
them, and fills the cache with them or not at all. -/
theorem rebuild_spec (hreads : reads.complete = true) :
    let out := s.rebuild reads live lastLive now
    (∀ pool, pool ∈ out.reconciled.map (·.1) ↔ pool ∈ live) ∧
    (∀ job ∈ out.published, job.pool ∉ live) ∧
    (∀ c, out.sweep.cache = some c → ∀ pool, pool ∈ c.desiredByPool ↔ pool ∈ live) := by
  simp only [Reads.complete, Bool.and_eq_true, Option.isSome_iff_exists] at hreads
  obtain ⟨⟨⟨⟨-, rows, hrows⟩, nodes, hnodes⟩, -⟩, -⟩ := hreads
  simp only [rebuild, hrows, hnodes, Option.map_some, Option.some_or]
  refine ⟨(gather_spec fun pool => mem_groupByPool_of_live).1,
    (gather_spec fun pool => mem_groupByPool_of_live).2.1, ?_⟩
  intro c hc
  split at hc
  · cases hc
    exact (gather_spec fun pool => mem_groupByPool_of_live).2.2
  · simp at hc

end

end Sweep

namespace Rounds

variable {ring : Ring} {s : Rounds Spec} {reads : Reads Spec} {now : Instant}

/-- The pools in the cache are those that were live when it was filled. -/
def Cached (s : Rounds Spec) : Prop :=
  ∀ c, s.sweep.cache = some c → ∀ pool, pool ∈ c.desiredByPool ↔ pool ∈ s.builtLive

/-- A round that uses the cache finds no pool live that was not live when the cache was
filled. -/
def foreseen (s : Rounds Spec) (reads : Reads Spec) (now : Instant) : Bool :=
  let live := s.core.livePools now
  (s.sweep.servingCache reads.generation live).isNone || live.all fun pool =>
    decide (pool ∈ s.builtLive)

/-- Every read of a round succeeds. -/
def Op.complete : Op Spec → Bool
  | .round reads _ => reads.complete
  | _ => true

theorem Cached.step (h : s.Cached) {op : Op Spec} (hop : op.complete = true) :
    (s.step ring op).Cached := by
  cases op with
  | heartbeat hb now => exact h
  | syncRequest req now => exact h
  | setPool pollerId pool => exact h
  | adoptPool pollerId pool => exact h
  | round reads now =>
    intro c hc
    simp only [Rounds.step, outcome, Sweep.round] at hc ⊢
    cases hserving : s.sweep.servingCache reads.generation (s.core.livePools now) with
    | some served =>
      rw [hserving] at hc
      exact h c hc
    | none =>
      rw [hserving] at hc
      exact (Sweep.rebuild_spec hop).2.2 c hc

theorem Cached.run {epoch : Uuid} {started : Instant} {registered : List PoolName}
    {ops : List (Op Spec)} (hops : ∀ op ∈ ops, op.complete = true) :
    (ops.foldl (Rounds.step ring) (start epoch started registered)).Cached :=
  (Meets.of_forall hops _).invariant (fun _ _ hop h => h.step hop)
    (fun c hc => by simp [start, Sweep.new] at hc)

/-- A round hands over every live pool exactly if it is foreseen. -/
theorem Cached.live_reconciled_iff (h : s.Cached) (hreads : reads.complete = true)
    (now : Instant) :
    (∀ pool ∈ s.core.livePools now, pool ∈ (s.outcome reads now).reconciled.map (·.1)) ↔
      s.foreseen reads now = true := by
  simp only [outcome, Sweep.round, foreseen]
  cases hserving : s.sweep.servingCache reads.generation (s.core.livePools now) with
  | none => simp [(Sweep.rebuild_spec hreads).1]
  | some c =>
    have hcache : s.sweep.cache = some c := (Option.filter_eq_some_iff.1 hserving).1
    simp [map_fst_toList_eq_keys, h c hcache]

/-- No pool is served both ways. -/
theorem not_reconciled_of_published (hreads : reads.complete = true)
    {job : PublishedJob Spec} (hjob : job ∈ (s.outcome reads now).published) :
    job.pool ∉ (s.outcome reads now).reconciled.map (·.1) := by
  simp only [outcome, Sweep.round] at hjob ⊢
  cases hserving : s.sweep.servingCache reads.generation (s.core.livePools now) with
  | some c =>
    rw [hserving] at hjob
    simp at hjob
  | none =>
    rw [hserving] at hjob
    intro hmem
    exact (Sweep.rebuild_spec hreads).2.1 job hjob (((Sweep.rebuild_spec hreads).1 _).1 hmem)

/-- A poller that is due a snapshot gets it when its pool is handed over. -/
theorem reconcileAll_snapshot {me : PollerId} {e : PollerEntry}
    (he : s.core.pollers[me]? = some e) (honline : Coordinator.isOnline now e = true)
    (hdue : e.needsSnapshot = true)
    (hpool : e.pool ∈ (s.outcome reads now).reconciled.map (·.1)) :
    ∃ target, ∀ msg ∈ snapshotOf s.core.epoch e.pool me (e.seq + 1) target,
      msg ∈ (s.reconcileAll ring reads now).2 := by
  rw [reconcileAll]
  generalize (s.outcome reads now).reconciled = calls at hpool
  generalize s.core = c at he
  -- Induction on the calls: those for other pools leave the poller as it is.
  induction calls generalizing c with
  | nil => simp at hpool
  | cons call rest ih =>
    by_cases hcall : call.1 = e.pool
    · obtain ⟨target, hsent⟩ := Coordinator.reconcilePool_snapshot he honline hdue
        ring call.2
      refine ⟨target, fun msg hmsg => mem_append_left _ ?_⟩
      rw [hcall]
      exact hsent msg hmsg
    · have hrest : e.pool ∈ rest.map (·.1) := by
        rw [map_cons, mem_cons] at hpool
        exact hpool.resolve_left fun h => hcall h.symm
      obtain ⟨hepoch, hentry⟩ := Coordinator.reconcilePool_other he (Ne.symm hcall)
        ring call.2 now
      obtain ⟨target, hsent⟩ := ih hrest _ hentry
      rw [hepoch] at hsent
      exact ⟨target, fun msg hmsg => mem_append_right _ (hsent msg hmsg)⟩

/-- In every run in which the reads succeed: a round hands every live pool to the coordinator
exactly if no pool became live unforeseen. It then sends a snapshot to every live poller that is
due one. In no round is a pool served both ways. -/
theorem round_serves_live_pools (ring : Ring) (epoch : Uuid) (started : Instant)
    (registered : List PoolName) (before : List (Op Spec)) (reads : Reads Spec) (now : Instant)
    (hreads : ∀ op ∈ before ++ [.round reads now], op.complete = true) :
    let s := before.foldl (step ring) (start epoch started registered)
    ((∀ pool ∈ s.core.livePools now, pool ∈ (s.outcome reads now).reconciled.map (·.1)) ↔
      s.foreseen reads now = true) ∧
    (s.foreseen reads now = true → ∀ (me : PollerId) (e : PollerEntry),
      s.core.pollers[me]? = some e → Coordinator.isOnline now e = true → e.needsSnapshot = true →
      ∃ target, ∀ msg ∈ snapshotOf s.core.epoch e.pool me (e.seq + 1) target,
        msg ∈ (s.reconcileAll ring reads now).2) ∧
    ∀ job ∈ (s.outcome reads now).published,
      job.pool ∉ (s.outcome reads now).reconciled.map (·.1) := by
  intro s
  have hlast : reads.complete = true := hreads (.round reads now) (by simp)
  have hcached : s.Cached := Cached.run fun op hop => hreads op (List.mem_append_left _ hop)
  have hiff := hcached.live_reconciled_iff hlast now
  refine ⟨hiff, ?_, fun job hjob => not_reconciled_of_published hlast hjob⟩
  intro hforeseen me e he honline hdue
  have hlive : e.pool ∈ s.core.livePools now :=
    Coordinator.mem_livePools.2 ⟨me, e, he, rfl, honline⟩
  exact reconcileAll_snapshot he honline hdue (hiff.2 hforeseen e.pool hlive)

/-! ### A pool without a node -/

/-- One node in the pool `hq`, with one check. -/
def oneNode : Reads Unit :=
  { generation := 0, defaultInterval := some 300, overrides := some fun _ => none
    poolRows := some [], nodes := some [⟨1, none, some "hq", none⟩], apNodeIds := some []
    merakiNodeIds := some [], jobs := fun _ _ => [((), "icmp")] }

/-- A heartbeat of a poller of the pool `hq` that has applied nothing. -/
def firstBeat (me : PollerId) : Op Unit :=
  .heartbeat ⟨me, "hq", me, none, 0, [], false⟩ 0

/-- The last member of a pool owns every node. -/
def lastOwns : Ring := fun members _ => members.getLast?

/-- Two pollers join the pool, and a round gives the node to the second. -/
def handedOver : List (Op Unit) := [firstBeat 7, firstBeat 8, .round oneNode 0]

/-- Then the inventory moves the second poller to a pool that has no node. -/
def movedByInventory : List (Op Unit) := handedOver ++ [.adoptPool 8 "lab"]

theorem round_serves_live_pools_steady :
    let s := handedOver.foldl (step lastOwns) (start 0 0 [])
    s.foreseen oneNode 0 = true ∧
      ∀ pool ∈ s.core.livePools 0, pool ∈ (s.outcome oneNode 0).reconciled.map (·.1) := by
  have hforeseen : (handedOver.foldl (step lastOwns) (start 0 0 [])).foreseen oneNode 0 = true := by
    decide +kernel
  have hreads : ∀ op ∈ handedOver ++ [.round oneNode 0], op.complete = true := by
    simp [handedOver, firstBeat, Op.complete, Reads.complete, oneNode]
  exact ⟨hforeseen,
    (round_serves_live_pools lastOwns 0 0 [] handedOver oneNode 0 hreads).1.2 hforeseen⟩

/-- The moved poller is live and due a snapshot, but the next round uses the cache and sends it
nothing: both pollers now poll the node. -/
theorem moved_poller_not_served :
    let s := movedByInventory.foldl (step lastOwns) (start 0 0 [])
    let after := s.step lastOwns (.round oneNode 0)
    "lab" ∈ s.core.livePools 0 ∧ "lab" ∉ (s.outcome oneNode 0).reconciled.map (·.1) ∧
      (s.core.pollers[8]?).map (·.needsSnapshot) = some true ∧
      (∀ msg ∈ (s.reconcileAll lastOwns oneNode 0).2, msg.pollerId ≠ 8) ∧
      (after.core.published[7]?).map (·.keys) = some [1] ∧
      (after.core.published[8]?).map (·.keys) = some [1] := by
  decide +kernel

end Rounds

end Yagra.Scheduler
