import Yagra.Fleet.PoolCoverage
import Yagra.Proofs.Rounds
import Yagra.Proofs.Trackers

/-!
# `Yagra.Proofs.PoolCoverage`: what the coverage watch counts and when it alerts

Two parts of the program decide which nodes a pool poller polls. The scheduler leaves out the nodes
of Meraki and the imported access points. The coverage watch leaves out only the nodes of Meraki.
`pool_counts_match_groups` says that the two agree where no other access point is in the inventory,
and `access_point_counted_not_grouped` is the case where they do not.

The rest is about runs of the watch beside the engine. `observe_watching` and `observe_events` say
what a sample does to one pool. `Tracks` relates the watch, the open alerts and the log of what was
said so far, and every operation keeps it, restarts included: a start seeds the watch with the pools
whose alert was restored.

A watch that is turned off is not seeded and clears nothing. An alert that is open when a core
starts with the watch turned off stays open whatever the samples show
(`switched_off_watch_strands_alert`).
-/

set_option autoImplicit false

namespace Yagra.Fleet

open Std (ExtTreeMap)
open Yagra.Lib
open Yagra.Scheduler CoverageEvent AlertManager CoverageWatch
open Std.ExtTreeMap (mem_iff_isSome_getElem? mem_toList_iff_getElem?_eq_some)
open List
open PoolResolver (build)

/-! ### Counting and grouping -/

theorem mem_coverage {live : List PollerView} {nodePools : ExtTreeMap PoolName Nat}
    {described : List PoolName} {c : PoolCoverage} (h : c ∈ coverage live nodePools described) :
    c.nodes = (nodePools[c.pool]?).getD 0 ∧
      c.livePollers = (live.filter (·.online)).countP fun view => view.pool = c.pool := by
  simp only [coverage, mem_map] at h
  obtain ⟨name, -, rfl⟩ := h
  exact ⟨rfl, getD_tally _ _ _⟩

variable {pool : PoolName}

/-- A pool is live exactly when a poller of it is online. -/
theorem mem_livePools {core : Coordinator} {now : Instant} :
    pool ∈ core.livePools now ↔
      0 < ((core.pollerViews now).filter (·.online)).countP fun view => view.pool = pool := by
  rw [countP_pos_iff]
  simp only [Coordinator.livePools, Coordinator.pollerViews, mem_map, mem_filter,
    decide_eq_true_eq]
  constructor
  · rintro ⟨⟨id, e⟩, ⟨he, honline⟩, rfl⟩
    exact ⟨⟨e.pool, Coordinator.isOnline now e⟩, ⟨⟨(id, e), he, rfl⟩, honline⟩, rfl⟩
  · rintro ⟨view, ⟨⟨⟨id, e⟩, he, rfl⟩, honline⟩, rfl⟩
    exact ⟨(id, e), ⟨he, honline⟩, rfl⟩

/-- The count of every pool is the number of nodes a round puts into it, and a pool is reported
uncovered only if it has no live poller and some node resolves to it that nothing else collects,
exactly where every imported access point among the nodes is also managed by Meraki. -/
theorem pool_counts_match_groups (rows : List (GroupId × Option GroupId × Option String))
    (merakiIds apIds : List NodeId) (nodes : List Node) (live : List PoolName)
    (interval : Node → Nat) :
    ∃ counts, nodeCountsByPool (some rows) (some merakiIds) (some nodes) = some counts ∧
      ((∀ pool : PoolName, (counts[pool]?).getD 0
        = (((groupByPool (nodes.map fun node => (node, interval node)) (merakiIds ++ apIds) live
            (build rows))[pool]?).getD []).length) ∧
      (∀ (core : Coordinator) (now : Instant) (described : List PoolName),
        ∀ c ∈ coverage (core.pollerViews now) counts described, c.isUncovered = true →
          c.pool ∉ core.livePools now ∧
            ∃ node ∈ nodes, node.id ∉ merakiIds ++ apIds ∧
              (build rows).resolvePool node = c.pool) ↔
      ∀ node ∈ nodes, node.id ∈ apIds → node.id ∈ merakiIds) := by
  -- Both are numbers of nodes of the inventory, and what is grouped is counted.
  let members (elsewhere : List NodeId) (pool : PoolName) : List Node :=
    nodes.filter fun node => ofPool elsewhere (build rows) pool (node, interval node)
  have hmem : ∀ {elsewhere pool node}, node ∈ members elsewhere pool ↔
      node ∈ nodes ∧ node.id ∉ elsewhere ∧ (build rows).resolvePool node = pool := by
    simp [members, ofPool]
  have hcount : ∀ pool, ((countByPool (nodes.filter fun node => isPoolPolled node merakiIds)
      (build rows))[pool]?).getD 0 = (members merakiIds pool).length := fun pool => by
    rw [countByPool, getD_tally, countP_filter, countP_eq_length_filter]
    simp only [members, ofPool, isPoolPolled, Bool.and_comm]
  have hgroup : ∀ pool, (((groupByPool (nodes.map fun node => (node, interval node))
      (merakiIds ++ apIds) live (build rows))[pool]?).getD []).length
      = (members (merakiIds ++ apIds) pool).length := fun pool => by
    rw [getD_groupByPool, filter_map, length_map]
    rfl
  refine ⟨_, rfl, fun hsame node hnode hap => by_contra fun hmeraki => ?_,
    fun haps => ⟨fun pool => ?_, fun core now described c hc huncovered => ?_⟩⟩
  · have hsub : (members (merakiIds ++ apIds) ((build rows).resolvePool node)).Sublist
        (members merakiIds ((build rows).resolvePool node)) :=
      monotone_filter_right _ (by simp +contextual [ofPool])
    have heq := hsub.eq_of_length (by rw [← hgroup, ← hsame.1, ← hcount])
    have hin := (heq ▸ hmem.2 ⟨hnode, hmeraki, rfl⟩ : node ∈ members (merakiIds ++ apIds) _)
    exact (hmem.1 hin).2.1 (mem_append_right _ hap)
  · rw [hcount, hgroup]
    congr 1
    refine filter_congr fun node hnode => ?_
    have hiff : node.id ∈ merakiIds ↔ node.id ∈ merakiIds ++ apIds :=
      ⟨mem_append_left _, fun helse => (mem_append.1 helse).elim id (haps node hnode)⟩
    rw [ofPool, ofPool, decide_eq_decide.2 (not_congr hiff)]
  · obtain ⟨hnodes, hlive⟩ := mem_coverage hc
    simp only [PoolCoverage.isUncovered, Bool.and_eq_true, decide_eq_true_eq] at huncovered
    refine ⟨fun hmem => ?_, ?_⟩
    · rw [mem_livePools] at hmem
      omega
    · have hpos := huncovered.1
      rw [hnodes, hcount, length_pos_iff_exists_mem] at hpos
      obtain ⟨node, hin⟩ := hpos
      obtain ⟨hnode, hmeraki, hpool⟩ := hmem.1 hin
      refine ⟨node, hnode, fun helse => ?_, hpool⟩
      exact hmeraki ((mem_append.1 helse).elim id (haps node hnode))

/-- A node without a pool of its own or a folder. -/
def looseNode (id : NodeId) : Node := { id := id, profile := none, pool := none, group := none }

/-- A node of Meraki and a node that is polled. -/
theorem pool_counts_match_groups_meraki :
    (∀ node ∈ [looseNode 1, looseNode 2], node.id ∈ [1] → node.id ∈ [1]) ∧
      ∃ counts, nodeCountsByPool (some []) (some [1]) (some [looseNode 1, looseNode 2])
          = some counts ∧
        (counts[defaultPool]?).getD 0
          = (((groupByPool ([looseNode 1, looseNode 2].map fun node => (node, 60)) ([1] ++ [1])
              [] (build []))[defaultPool]?).getD []).length := by
  have haps : ∀ node ∈ [looseNode 1, looseNode 2], node.id ∈ [1] → node.id ∈ [1] := by decide
  obtain ⟨counts, hcounts, hiff⟩ :=
    pool_counts_match_groups [] [1] [1] [looseNode 1, looseNode 2] [] fun _ => 60
  exact ⟨haps, counts, hcounts, (hiff.2 haps).1 defaultPool⟩

/-- An imported access point is counted and is put into no pool. Its pool is reported uncovered
although nothing in it has to be polled. -/
theorem access_point_counted_not_grouped :
    ∃ counts, nodeCountsByPool (some []) (some []) (some [looseNode 7]) = some counts ∧
      (counts[defaultPool]?).getD 0 = 1 ∧
      (((groupByPool ([looseNode 7].map fun node => (node, 60)) ([] ++ [7]) []
        (build []))[defaultPool]?).getD []).length = 0 ∧
      coverage ((Coordinator.new 0).pollerViews 0) counts [] = [⟨defaultPool, 1, 0⟩] ∧
      (⟨defaultPool, 1, 0⟩ : PoolCoverage).isUncovered = true := by
  refine ⟨_, rfl, ?_, ?_, ?_, rfl⟩
  · decide
  · decide
  · decide

/-! ### What a sample does to one pool -/

/-- The sample shows the pool uncovered. -/
def ShowsUncovered (pool : PoolName) (sample : List PoolCoverage) : Prop :=
  ∃ c ∈ sample, c.isUncovered = true ∧ c.pool = pool

namespace CoverageWatch

theorem mem_uncoveredOf {sample : List PoolCoverage} :
    pool ∈ uncoveredOf sample ↔ ShowsUncovered pool sample := by
  rw [uncoveredOf, ExtTreeMap.mem_ofList, map_map, contains_iff_mem, mem_map]
  simp only [mem_filter, Function.comp_apply, and_assoc]
  rfl

/-- What the watch keeps of an uncovered pool. -/
def nextWatch (w : CoverageWatch) (now : Instant) (pool : PoolName) : PoolWatch :=
  let watch := (w.watching[pool]?).getD ⟨now, false⟩
  { watch with raised := watch.raised || isOverdue w.raiseAfter now watch }

/-- What a sample that shows `nodes` nodes uncovered in a pool, or none, says about the pool. -/
def eventsFor (w : CoverageWatch) (now : Instant) (pool : PoolName) : Option Nat →
    List CoverageEvent
  | some nodes =>
    if isOverdue w.raiseAfter now ((w.watching[pool]?).getD ⟨now, false⟩) then
      [.raise pool nodes]
    else []
  | none => if (w.watching[pool]?).any (·.raised) then [.clear pool] else []

/-- The loop over the uncovered pools looks at each on its own. -/
theorem watchPool_local (raiseAfter : Nat) (now : Instant) :
    Local (watchPool raiseAfter now) (fun _ => True) Prod.fst CoverageEvent.pool
      (fun pool watching => watching[pool]?) (fun _ => ()) where
  inv_step := fun _ _ _ => trivial
  frame := by
    intro watching entry pool _ hne
    rw [watchPool]
    split <;> simp [ExtTreeMap.getElem?_insert, Ne.symm hne]
  env_eq := fun _ _ => rfl
  out := by
    intro watching entry _ e he
    rw [watchPool] at he
    split at he
    · rw [mem_singleton.1 he]
      rfl
    · simp at he
  det := by
    intro watching watching' entry _ heq
    simp only [watchPool, heq]
    split <;> simp

variable {w : CoverageWatch} {sample : List PoolCoverage} {now : Instant}

theorem kept_getElem? {uncovered : ExtTreeMap PoolName Nat} (h : pool ∈ uncovered) :
    (w.watching.filter fun pool _ => decide (pool ∈ uncovered))[pool]? = w.watching[pool]? := by
  simp only [ExtTreeMap.getElem?_filter, ExtTreeMap.getKey_eq, h, decide_true]
  cases w.watching[pool]? <;> rfl

theorem notMem_toList_fst {m : ExtTreeMap PoolName Nat} {pool : PoolName} (h : m[pool]? = none) :
    pool ∉ m ∧ pool ∉ m.toList.map Prod.fst := by
  have hnot : pool ∉ m := by simp [mem_iff_isSome_getElem?, h]
  exact ⟨hnot, by rwa [ExtTreeMap.map_fst_toList_eq_keys, ExtTreeMap.mem_keys]⟩

theorem mem_toList_of_getElem? {m : ExtTreeMap PoolName Nat} {pool : PoolName} {nodes : Nat}
    (h : m[pool]? = some nodes) : pool ∈ m ∧ (pool, nodes) ∈ m.toList :=
  ⟨of_getElem?_eq_some h, mem_toList_iff_getElem?_eq_some.2 h⟩

/-- What an enabled watch remembers of a pool after a sample. -/
theorem observe_watching (hw : w.disabled = false) (pool : PoolName) :
    (w.observe sample now).1.watching[pool]?
      = ((uncoveredOf sample)[pool]?).map fun _ => w.nextWatch now pool := by
  simp only [observe, hw, Bool.false_eq_true, if_false]
  have hlocal := watchPool_local w.raiseAfter now
  cases hp : (uncoveredOf sample)[pool]? with
  | none =>
    obtain ⟨hnot, hkeys⟩ := notMem_toList_fst hp
    rw [(hlocal.emitAll_of_notMem hkeys trivial).1]
    simp [ExtTreeMap.getElem?_filter, hnot]
  | some nodes =>
    obtain ⟨hmem, hentry⟩ := mem_toList_of_getElem? hp
    rw [(hlocal.emitAll_of_mem (nodup_toList_fst _) hentry trivial).1, watchPool,
      kept_getElem? hmem, nextWatch]
    split
    next h => simp [h]
    next h => simp [h]

theorem filter_cleared (uncovered : ExtTreeMap PoolName Nat) (pool : PoolName) :
    ((w.watching.toList.filter fun p => decide (p.1 ∉ uncovered) && p.2.raised).map
        fun p => clear p.1).filter (fun e => e.pool = pool)
      = if pool ∉ uncovered ∧ (w.watching[pool]?).any (·.raised) then [.clear pool] else [] := by
  have hswap : ((w.watching.toList.filter fun p => decide (p.1 ∉ uncovered) && p.2.raised).map
        fun p => clear p.1).filter (fun e => e.pool = pool)
      = ((w.watching.toList.filter fun p => decide (p.1 = pool)).filter fun p =>
          decide (p.1 ∉ uncovered) && p.2.raised).map fun p => clear p.1 := by
    rw [filter_map, filter_comm]
    rfl
  rw [hswap, filter_toList]
  cases w.watching[pool]? with
  | none => simp
  | some watch =>
    by_cases hpool : pool ∈ uncovered
    · simp [hpool]
    · cases hraised : watch.raised <;> simp [hpool, hraised]

/-- What an enabled watch says about a pool at a sample. -/
theorem observe_events (hw : w.disabled = false) (pool : PoolName) :
    (w.observe sample now).2.filter (fun e => e.pool = pool)
      = w.eventsFor now pool (uncoveredOf sample)[pool]? := by
  simp only [observe, hw, Bool.false_eq_true, if_false]
  have hlocal := watchPool_local w.raiseAfter now
  -- Sorting keeps the events of a pool, and there is at most one.
  have hsort := (perm_insertionSort (fun a b : CoverageEvent => a.pool ≤ b.pool)
    ((w.watching.toList.filter fun p => decide (p.1 ∉ uncoveredOf sample) && p.2.raised).map
        (fun p => clear p.1) ++
      (emitAll (watchPool w.raiseAfter now)
        (w.watching.filter fun pool _ => decide (pool ∈ uncoveredOf sample))
        (uncoveredOf sample).toList).2)).filter
        (fun e => decide (e.pool = pool))
  rw [filter_append, filter_cleared] at hsort
  cases hp : (uncoveredOf sample)[pool]? with
  | none =>
    obtain ⟨hnot, hkeys⟩ := notMem_toList_fst hp
    rw [(hlocal.emitAll_of_notMem hkeys trivial).2] at hsort
    simp only [hnot, not_false_eq_true, true_and] at hsort
    rw [eventsFor]
    split at hsort
    next h => rw [if_pos h, perm_singleton.1 hsort]
    next h => rw [if_neg h, perm_nil.1 hsort]
  | some nodes =>
    obtain ⟨hmem, hentry⟩ := mem_toList_of_getElem? hp
    rw [(hlocal.emitAll_of_mem (nodup_toList_fst _) hentry trivial).2, watchPool,
      kept_getElem? hmem] at hsort
    simp only [hmem, not_true_eq_false, false_and, if_false, nil_append] at hsort
    rw [eventsFor]
    split at hsort
    next h => rw [if_pos h, perm_singleton.1 hsort]
    next h => rw [if_neg h, perm_nil.1 hsort]

end CoverageWatch

/-! ### What the log says -/

/-- The debounce of a process, and the samples it took. -/
structure WatchProcess where
  raiseAfter : Nat
  samples : List (Instant × List PoolCoverage)

/-- What one more output says about the process. -/
def WatchProcess.note (p : WatchProcess) : CoverageOutput → WatchProcess
  | .started raiseAfter => ⟨raiseAfter, []⟩
  | .sampled now sample => { p with samples := p.samples ++ [(now, sample)] }
  | .event _ => p

/-- The process that wrote the end of a log. -/
def lastProcess (log : List CoverageOutput) : WatchProcess := log.foldl WatchProcess.note ⟨0, []⟩

/-- Whether an event raises its pool. The other events clear it. -/
def CoverageEvent.isRaise : CoverageEvent → Bool
  | .raise _ _ => true
  | .clear _ => false

/-- Whether a pool was raised and not cleared since. -/
def standing (pool : PoolName) (log : List CoverageOutput) : Bool :=
  log.foldl (fun raised out => match out with
    | .event e => if e.pool = pool then e.isRaise else raised
    | _ => raised) false

/-- Every sample from some sample at `since` on showed the pool uncovered. -/
def UncoveredSince (pool : PoolName) (since : Instant)
    (samples : List (Instant × List PoolCoverage)) : Prop :=
  ∃ earlier first later, samples = earlier ++ (since, first) :: later ∧
    ∀ x ∈ (since, first) :: later, ShowsUncovered pool x.2

theorem UncoveredSince.append {since : Instant} {samples : List (Instant × List PoolCoverage)}
    (h : UncoveredSince pool since samples) (now : Instant) {sample : List PoolCoverage}
    (hsample : ShowsUncovered pool sample) :
    UncoveredSince pool since (samples ++ [(now, sample)]) := by
  obtain ⟨earlier, first, later, rfl, hall⟩ := h
  refine ⟨earlier, first, later ++ [(now, sample)], by simp, ?_⟩
  intro x hx
  rw [← cons_append, mem_append, mem_singleton] at hx
  rcases hx with hx | rfl
  · exact hall x hx
  · exact hsample

/-- The output of a tick with a sample. -/
def tickOutput (now : Instant) (sample : List PoolCoverage) (events : List CoverageEvent) :
    List CoverageOutput :=
  .sampled now sample :: events.map .event

theorem lastProcess_tick (log : List CoverageOutput) (now : Instant) (sample : List PoolCoverage)
    (events : List CoverageEvent) :
    lastProcess (log ++ tickOutput now sample events)
      = { lastProcess log with samples := (lastProcess log).samples ++ [(now, sample)] } := by
  have hevents : ∀ (events : List CoverageEvent) (p : WatchProcess),
      (events.map CoverageOutput.event).foldl WatchProcess.note p = p := by
    intro events
    induction events with
    | nil => exact fun _ => rfl
    | cons e rest ih => exact fun p => ih p
  rw [lastProcess, foldl_append, tickOutput, foldl_cons, hevents]
  rfl

/-- Only the events about a pool count for whether it stands. -/
theorem standing_tick (pool : PoolName) (log : List CoverageOutput) (now : Instant)
    (sample : List PoolCoverage) (events : List CoverageEvent) :
    standing pool (log ++ tickOutput now sample events)
      = (events.filter fun e => e.pool = pool).foldl (fun _ e => e.isRaise)
          (standing pool log) := by
  have hevents : ∀ (events : List CoverageEvent) (raised : Bool),
      (events.map CoverageOutput.event).foldl (fun raised out => match out with
        | .event e => if e.pool = pool then e.isRaise else raised
        | _ => raised) raised
        = (events.filter fun e => e.pool = pool).foldl (fun _ e => e.isRaise) raised := by
    intro events
    induction events with
    | nil => exact fun _ => rfl
    | cons e rest ih =>
      intro raised
      rw [map_cons, foldl_cons, ih]
      by_cases he : e.pool = pool <;> simp [he]
  rw [standing, foldl_append, tickOutput, foldl_cons, hevents, ← standing]

/-- A pool that stands goes on standing while it is not cleared. -/
theorem standing_append {log rest : List CoverageOutput} (h : standing pool log = true)
    (hclear : .event (.clear pool) ∉ rest) : standing pool (log ++ rest) = true := by
  rw [standing, foldl_append, ← standing]
  generalize standing pool log = raised at h
  induction rest generalizing raised with
  | nil => exact h
  | cons out rest ih =>
    rw [mem_cons, not_or] at hclear
    refine ih hclear.2 _ ?_
    subst h
    cases out with
    | started _ | sampled _ _ => rfl
    | event e =>
      cases e with
      | raise p n => simp [CoverageEvent.isRaise]
      | clear p =>
        have hne : p ≠ pool := fun heq => hclear.1 (by rw [heq])
        simp [CoverageEvent.pool, hne]

/-! ### The alerts -/

/-- Whether the coverage alert of a pool is open. -/
def alertOpen (m : AlertManager) (pool : PoolName) : Bool :=
  (m.active (coverageCheck pool)).isSome

theorem coverageCheck_inj {pool' : PoolName} :
    coverageCheck pool = coverageCheck pool' ↔ pool = pool' := by
  simp [coverageCheck, RaisedCheck.check, subjectCheckId]

namespace CoverageLoop

theorem alertOpen_apply (wall : UnixMs) (m : AlertManager) (e : CoverageEvent) (pool : PoolName) :
    alertOpen (apply wall m e) pool = if e.pool = pool then e.isRaise else alertOpen m pool := by
  cases e with
  | raise p nodes =>
    obtain ⟨b, hb, hactive, -⟩ := m.raiseEventAlert_active (Raised.poolCoverage p wall).alert
    have hcheck : (Raised.poolCoverage p wall).alert.check = coverageCheck p := rfl
    rw [hcheck] at hactive
    simp only [alertOpen, apply, hactive, Function.update_apply, coverageCheck_inj,
      CoverageEvent.pool, CoverageEvent.isRaise]
    by_cases hp : pool = p
    · simp [hp, hb]
    · simp [hp, Ne.symm hp]
  | clear p =>
    simp only [alertOpen, apply, resolveEventAlert,
      closeActive_active, Function.update_apply, coverageCheck_inj,
      CoverageEvent.pool, CoverageEvent.isRaise]
    by_cases hp : pool = p
    · simp [hp]
    · simp [hp, Ne.symm hp]

/-- Only the events about a pool count for its alert. -/
theorem alertOpen_foldl (wall : UnixMs) (m : AlertManager) (events : List CoverageEvent)
    (pool : PoolName) :
    alertOpen (events.foldl (apply wall) m) pool
      = (events.filter fun e => e.pool = pool).foldl (fun _ e => e.isRaise) (alertOpen m pool) := by
  induction events generalizing m with
  | nil => rfl
  | cons e rest ih =>
    rw [foldl_cons, ih, alertOpen_apply]
    by_cases he : e.pool = pool <;> simp [he]

end CoverageLoop

/-! ### Restarts -/

/-- The stored rows of coverage alerts have the check their pool and metric give, and `order` lists
the alerts they are restored as. -/
structure RowsFiled (rows : List AlertHistoryRow) (order : List CheckId) : Prop where
  filed : ∀ row ∈ rows, ∀ pool, row.check = coverageCheck pool ↔
    row.metricName = .metric .poolCoverage ∧ row.subject = .pool pool
  order : Enumerates order (fresh.restore (rows.map alertFromRow)).active

/-- A restart restores the coverage alerts that are open. -/
structure Restores (m : AlertManager) (rows : List AlertHistoryRow) (order : List CheckId) :
    Prop extends RowsFiled rows order where
  opened : ∀ pool, (rows.any fun row => row.check = coverageCheck pool) = alertOpen m pool

theorem mem_raisedPools {active : List Alert} :
    pool ∈ raisedPools active ↔
      ∃ a ∈ active, a.metric = .metric .poolCoverage ∧ a.subject = .pool pool := by
  rw [raisedPools, mem_dedup, (perm_insertionSort _ _).mem_iff, mem_filterMap]
  refine exists_congr fun a => and_congr_right fun _ => ?_
  split
  next p hmetric hsubject => simp [hmetric, hsubject]
  next hnot =>
    constructor
    · exact fun h => absurd h (by simp)
    · exact fun h => absurd h.2 (hnot pool h.1)

theorem seed_watching {w : CoverageWatch} (hw : w.disabled = false) (raised : List PoolName)
    (now : Instant) (pool : PoolName) :
    (w.seed raised now).watching[pool]?
      = if pool ∈ raised then some ⟨now, true⟩ else w.watching[pool]? := by
  rw [seed, hw]
  generalize w.watching = watching
  induction raised generalizing watching with
  | nil => rfl
  | cons first rest ih =>
    rw [foldl_cons, ih, ExtTreeMap.getElem?_insert]
    by_cases hrest : pool ∈ rest
    · simp [hrest]
    · by_cases hfirst : first = pool
      · simp [hfirst]
      · simp [hrest, hfirst, Ne.symm hfirst]

/-- The seeded watch knows the pools whose alert was restored. -/
theorem RowsFiled.raised {rows : List AlertHistoryRow} {order : List CheckId}
    (h : RowsFiled rows order) (pool : PoolName) :
    pool ∈ raisedPools ((fresh.restore (rows.map alertFromRow)).activeAlerts order) ↔
      alertOpen (fresh.restore (rows.map alertFromRow)) pool = true := by
  rw [mem_raisedPools, alertOpen, Option.isSome_iff_exists]
  simp only [activeAlerts, mem_filterMap]
  constructor
  · rintro ⟨a, ⟨c, hc, ha⟩, hmetric, hsubject⟩
    obtain ⟨row, hrow, hcheck, rc, rfl⟩ := restored_active ha
    have hpool := (h.filed row hrow pool).2 ⟨hmetric, hsubject⟩
    exact ⟨_, by rw [← hpool, hcheck]; exact ha⟩
  · rintro ⟨a, ha⟩
    obtain ⟨row, hrow, hcheck, rc, rfl⟩ := restored_active ha
    have hpool := (h.filed row hrow pool).1 hcheck
    have hmem := h.order.covers (coverageCheck pool) (by rw [ha]; rfl)
    exact ⟨_, ⟨coverageCheck pool, hmem, ha⟩, hpool.1, hpool.2⟩

namespace CoverageLoop

/-! ### Runs -/

/-- What may happen in a run: other parts of the program neither open nor close a coverage alert,
and a restart restores those that are open. -/
def Admits (s : CoverageLoop) : CoverageOp → Prop
  | .engine op => ∀ pool, alertOpen (s.manager.step op).1 pool = alertOpen s.manager pool
  | .tick _ => True
  | .restart rows order _ _ => Restores s.manager rows order

/-- An operation that is fit to run is admitted if its sweeps close no alert of a pool and it raises
none. The observations, a new configuration and a release never do. -/
theorem admits_engine {s : CoverageLoop} {op : Op} (hok : op.Ok s.manager)
    (hsweeps : ∀ x ∈ op.atoms s.manager, ∀ pool,
      x ≠ .orphan (coverageCheck pool) ∧ x ≠ .close (coverageCheck pool) ∧
        ∀ a, x = .raise a → a.check ≠ coverageCheck pool) : s.Admits (.engine op) := by
  intro pool
  rw [step_eq_atoms]
  refine ((atomOk_atoms hok).and (Along.of_forall (fun _ x hx => hsweeps x hx pool) _)).invariant
    (P := fun m => alertOpen m pool = alertOpen s.manager pool) (fun m x hx hm => ?_) rfl
  rw [← hm]
  refine (atom_spares (c := coverageCheck pool) ?_).2
  obtain ⟨hatom, horphan, hclose, hraise⟩ := hx
  have hsubject : ∀ node, (coverageCheck pool).subject ≠ .node node := by simp [coverageCheck,
    RaisedCheck.check, subjectCheckId]
  cases x with
  | check order node raw t spec =>
    intro heq
    cases hatom.1 with
    | liveness _ hc _ _ _ => exact hsubject node (by rw [heq, hc]; rfl)
    | threshold _ _ _ hs _ _ _ => exact hsubject node (by rw [heq, hs])
  | retire node metric => exact fun heq => hsubject node (by rw [heq]; rfl)
  | orphan c => exact fun heq => horphan (by rw [heq])
  | close c => exact fun heq => hclose (by rw [heq])
  | raise a => exact (hraise a rfl).symm
  | _ => trivial

/-- How the watch, the alerts and the log belong together. -/
structure Tracks (log : List CoverageOutput) (s : CoverageLoop) : Prop where
  debounce : (lastProcess log).raiseAfter = s.watch.raiseAfter
  linked : s.watch.disabled = false → ∀ pool,
    alertOpen s.manager pool = (s.watch.watching[pool]?).any (·.raised)
  open_of_standing : ∀ pool, standing pool log = true → alertOpen s.manager pool = true
  waiting : ∀ pool watch, s.watch.watching[pool]? = some watch → watch.raised = false →
    UncoveredSince pool watch.since (lastProcess log).samples

/-- Before a Raise the pool did not stand, and it has been uncovered for the debounce. -/
def HasCause (pool : PoolName) (before : List CoverageOutput) : Prop :=
  standing pool before = false ∧
    ∃ now sample since, (lastProcess before).samples.getLast? = some (now, sample) ∧
      since + (lastProcess before).raiseAfter ≤ now ∧
      UncoveredSince pool since (lastProcess before).samples

/-- Every Raise in the log has a cause. -/
def Caused (log : List CoverageOutput) : Prop :=
  ∀ before pool nodes after, log = before ++ .event (.raise pool nodes) :: after →
    HasCause pool before

variable {log : List CoverageOutput}

theorem Caused.append {out : List CoverageOutput} (h : Caused log)
    (hout : ∀ before pool nodes after, out = before ++ .event (.raise pool nodes) :: after →
      HasCause pool (log ++ before)) : Caused (log ++ out) := by
  intro before pool nodes after heq
  rcases append_eq_append_iff.1 heq with ⟨rest, rfl, hrest⟩ | ⟨rest, rfl, hrest⟩
  · exact hout rest pool nodes after hrest
  · cases rest with
    | nil =>
      have := hout [] pool nodes after hrest.symm
      simpa using this
    | cons x rest =>
      obtain ⟨rfl, rfl⟩ := hrest
      exact h before pool nodes rest rfl

section
variable {s : CoverageLoop} {log : List CoverageOutput} {sample : List PoolCoverage}
  {now : Instant} {wall : UnixMs}

/-- The state after a sample. -/
def sampled (s : CoverageLoop) (cached : CountsCache) (sample : List PoolCoverage) (now : Instant)
    (wall : UnixMs) : CoverageLoop :=
  { manager := (s.watch.observe sample now).2.foldl (apply wall) s.manager
    watch := (s.watch.observe sample now).1
    cached := cached }

theorem tick_eq (s : CoverageLoop) (reads : CoverageReads) :
    s.tick reads = match CoverageLoop.sample s.cached reads with
      | none => ({ s with cached := refresh s.cached reads }, [])
      | some sample => (s.sampled (refresh s.cached reads) sample reads.now reads.wall,
          tickOutput reads.now sample (s.watch.observe sample reads.now).2) := rfl

@[simp] theorem observe_raiseAfter (w : CoverageWatch) (sample : List PoolCoverage)
    (now : Instant) : (w.observe sample now).1.raiseAfter = w.raiseAfter := by
  rw [observe]
  split <;> rfl

theorem observe_of_disabled {w : CoverageWatch} (hw : w.disabled = true)
    (sample : List PoolCoverage) (now : Instant) :
    w.observe sample now = ({ w with watching := ∅ }, []) := by
  rw [observe, if_pos hw]

section

variable (hw : s.watch.disabled = false) (h : Tracks log s)

include hw h

/-- After a sample the alert of a pool is open exactly when the sample shows the pool uncovered,
and the alert was open or is now raised. -/
theorem alertOpen_sampled (cached : CountsCache) (pool : PoolName) :
    alertOpen (s.sampled cached sample now wall).manager pool
      = ((uncoveredOf sample)[pool]?).any fun _ =>
          (s.watch.nextWatch now pool).raised := by
  have hlinked := h.linked hw pool
  rw [sampled, alertOpen_foldl, observe_events hw]
  cases (uncoveredOf sample)[pool]? with
  | none =>
    rw [eventsFor, ← hlinked]
    cases alertOpen s.manager pool <;> rfl
  | some nodes =>
    rw [eventsFor, hlinked]
    cases hwatch : s.watch.watching[pool]? with
    | none =>
      simp only [nextWatch, hwatch, Option.getD_none]
      split
      next hover => simp [hover, isRaise]
      next hover => simp [hover]
    | some watch =>
      simp only [nextWatch, hwatch, Option.getD_some]
      split
      next hover => simp [hover, isRaise]
      next hover => simp [hover]

/-- An enabled watch takes a sample. -/
theorem tracks_sampled (cached : CountsCache) :
    Tracks (log ++ tickOutput now sample (s.watch.observe sample now).2)
      (s.sampled cached sample now wall) where
  debounce := by
    rw [lastProcess_tick]
    exact h.debounce.trans (observe_raiseAfter _ _ _).symm
  linked := by
    intro _ pool
    rw [alertOpen_sampled hw h, sampled, observe_watching hw]
    cases (uncoveredOf sample)[pool]? <;> rfl
  open_of_standing := by
    intro pool hstanding
    rw [standing_tick, observe_events hw] at hstanding
    rw [sampled, alertOpen_foldl, observe_events hw]
    -- The same events decide both, so only a pool without an event is left.
    cases hevents : s.watch.eventsFor now pool (uncoveredOf sample)[pool]? with
    | nil =>
      rw [hevents] at hstanding
      exact h.open_of_standing pool hstanding
    | cons e rest =>
      rw [hevents] at hstanding
      exact hstanding
  waiting := by
    intro pool watch hwatch hraised
    rw [sampled, observe_watching hw, Option.map_eq_some_iff] at hwatch
    obtain ⟨nodes, hnodes, rfl⟩ := hwatch
    have hshows : ShowsUncovered pool sample :=
      mem_uncoveredOf.1 (of_getElem?_eq_some hnodes)
    rw [lastProcess_tick]
    cases hold : s.watch.watching[pool]? with
    | none =>
      refine ⟨(lastProcess log).samples, sample, [], ?_, by simpa using hshows⟩
      simp [nextWatch, hold]
    | some old =>
      have holdRaised : old.raised = false := by
        simp only [nextWatch, hold, Option.getD_some, Bool.or_eq_false_iff] at hraised
        exact hraised.1
      have hsince := (h.waiting pool old hold holdRaised).append now hshows
      simpa [nextWatch, hold] using hsince

/-- A Raise of an enabled watch has a cause. -/
theorem hasCause_of_overdue {nodes : Nat} {before after : List CoverageEvent}
    (hsplit : (s.watch.observe sample now).2 = before ++ .raise pool nodes :: after) :
    HasCause pool (log ++ tickOutput now sample before) := by
  have hevents : (s.watch.observe sample now).2.filter (fun e => e.pool = pool) = _ :=
    observe_events hw pool
  rw [hsplit, filter_append, filter_cons_of_pos (by simp [CoverageEvent.pool])] at hevents
  -- The one event about the pool is this Raise.
  cases hunc : (uncoveredOf sample)[pool]? with
  | none =>
    rw [hunc, eventsFor] at hevents
    split at hevents <;>
      simp [append_eq_singleton_iff] at hevents
  | some n =>
    rw [hunc, eventsFor] at hevents
    split at hevents
    next hover =>
      have hnone : before.filter (fun e => decide (e.pool = pool)) = [] := by
        rcases append_eq_singleton_iff.1 hevents with ⟨h, -⟩ | ⟨-, h⟩
        · exact h
        · simp at h
      have hshows : ShowsUncovered pool sample :=
        mem_uncoveredOf.1 (of_getElem?_eq_some hunc)
      simp only [isOverdue, Bool.and_eq_true, Bool.not_eq_true', decide_eq_true_eq] at hover
      obtain ⟨hraised, hlong⟩ := hover
      refine ⟨?_, now, sample, ((s.watch.watching[pool]?).getD ⟨now, false⟩).since, ?_⟩
      · rw [standing_tick, hnone]
        have hopen : alertOpen s.manager pool = false := by
          rw [h.linked hw pool]
          cases hold : s.watch.watching[pool]? with
          | none => rfl
          | some old => simpa [hold] using hraised
        by_contra hstanding
        rw [h.open_of_standing pool (by simpa using hstanding)] at hopen
        cases hopen
      · rw [lastProcess_tick]
        have hpos : s.watch.raiseAfter ≠ 0 := by simpa [disabled] using hw
        refine ⟨by simp, ?_, ?_⟩
        · show _ + (lastProcess log).raiseAfter ≤ now
          rw [h.debounce]
          omega
        · cases hold : s.watch.watching[pool]? with
          | none =>
            exact ⟨(lastProcess log).samples, sample, [], rfl, by simpa using hshows⟩
          | some old =>
            rw [hold] at hraised
            exact (h.waiting pool old hold hraised).append now hshows
    next => simp at hevents

end

/-- A tick keeps the watch, the alerts and the log together. -/
theorem tracks_tick (h : Tracks log s) (hlog : Caused log) (reads : CoverageReads) :
    Tracks (log ++ (s.tick reads).2) (s.tick reads).1 ∧ Caused (log ++ (s.tick reads).2) := by
  rw [tick_eq]
  cases CoverageLoop.sample s.cached reads with
  | none =>
    simp only [append_nil]
    exact ⟨⟨h.debounce, h.linked, h.open_of_standing, h.waiting⟩, hlog⟩
  | some sample =>
    show Tracks (log ++ tickOutput _ sample (s.watch.observe sample _).2)
        (s.sampled _ sample _ _) ∧
      Caused (log ++ tickOutput _ sample (s.watch.observe sample _).2)
    cases hw : s.watch.disabled with
    | false =>
      refine ⟨tracks_sampled hw h _, hlog.append ?_⟩
      intro before pool nodes after hsplit
      cases before with
      | nil => simp [tickOutput] at hsplit
      | cons out rest =>
        rw [tickOutput, cons_append, cons.injEq, map_eq_append_iff] at hsplit
        obtain ⟨rfl, events, later, hevents, rfl, hlater⟩ := hsplit
        obtain ⟨e, later, rfl, he, -⟩ := map_eq_cons_iff.1 hlater
        rw [CoverageOutput.event.inj he] at hevents
        exact hasCause_of_overdue hw h hevents
    | true =>
      -- A watch that is turned off forgets its pools and says nothing.
      simp only [sampled, observe_of_disabled hw, foldl_nil]
      refine ⟨⟨?_, ?_, ?_, ?_⟩, hlog.append ?_⟩
      · rw [lastProcess_tick]
        exact h.debounce
      · intro hw'
        exact absurd (hw.symm.trans hw') (by simp)
      · intro pool hstanding
        rw [standing_tick] at hstanding
        exact h.open_of_standing pool hstanding
      · intro pool watch hwatch
        simp at hwatch
      · intro before pool nodes after hsplit
        cases before <;> simp [tickOutput] at hsplit

end

variable {s : CoverageLoop} {rows : List AlertHistoryRow} {order : List CheckId}
  {ops : List CoverageOp}

/-- A process that starts. -/
theorem tracks_start (hrows : RowsFiled rows order) (raiseAfter : Nat) (now : Instant)
    (hopen : ∀ pool, standing pool log = true →
      alertOpen (start rows order raiseAfter now).manager pool = true) :
    Tracks (log ++ [.started raiseAfter]) (start rows order raiseAfter now) := by
  have hprocess : lastProcess (log ++ [.started raiseAfter]) = ⟨raiseAfter, []⟩ := by
    rw [lastProcess, foldl_append]
    rfl
  have hseeded : ((start rows order raiseAfter now).watch).raiseAfter = raiseAfter := by
    simp only [start, seed]
    split <;> rfl
  have hwatching : raiseAfter ≠ 0 → ∀ pool, (start rows order raiseAfter now).watch.watching[pool]?
      = if alertOpen (start rows order raiseAfter now).manager pool then some ⟨now, true⟩
        else none := by
    intro hpos pool
    have hnew : (new raiseAfter).disabled = false := decide_eq_false hpos
    have hraised := hrows.raised pool
    rw [start, seed_watching hnew]
    split
    next hmem => rw [if_pos (hraised.1 hmem)]
    next hmem =>
      rw [if_neg (mt hraised.2 hmem)]
      simp [new]
  refine ⟨by rw [hprocess, hseeded], ?_, ?_, ?_⟩
  · intro hw pool
    have hpos : raiseAfter ≠ 0 := by
      rw [disabled, hseeded] at hw
      simpa using hw
    rw [hwatching hpos pool]
    cases alertOpen (start rows order raiseAfter now).manager pool <;> rfl
  · intro pool hstanding
    refine hopen pool ?_
    rw [standing, foldl_append] at hstanding
    exact hstanding
  · intro pool watch hwatch hraised
    by_cases hpos : raiseAfter = 0
    · simp [start, seed, disabled, new, hpos] at hwatch
    · rw [hwatching hpos] at hwatch
      split at hwatch
      · rw [← Option.some.inj hwatch] at hraised
        cases hraised
      · cases hwatch

/-- Every operation keeps the watch, the alerts and the log together. -/
theorem tracks_step (h : Tracks log s) (hlog : Caused log) {op : CoverageOp} (hop : s.Admits op) :
    Tracks (log ++ (s.step op).2) (s.step op).1 ∧ Caused (log ++ (s.step op).2) := by
  cases op with
  | engine op =>
    simp only [step, append_nil]
    refine ⟨⟨h.debounce, ?_, ?_, h.waiting⟩, hlog⟩
    · exact fun hw pool => (hop pool).trans (h.linked hw pool)
    · exact fun pool hstanding => (hop pool).trans (h.open_of_standing pool hstanding)
  | tick reads => exact tracks_tick h hlog reads
  | restart rows order raiseAfter now =>
    refine ⟨tracks_start hop.toRowsFiled raiseAfter now ?_, hlog.append ?_⟩
    · intro pool hstanding
      have hrestored : alertOpen (start rows order raiseAfter now).manager pool
          = rows.any fun row => row.check = coverageCheck pool :=
        restored_active_isSome rows (coverageCheck pool)
      rw [hrestored, hop.opened pool]
      exact h.open_of_standing pool hstanding
    · intro before pool nodes after hsplit
      cases before <;> simp [step] at hsplit

/-- Every run keeps the watch, the alerts and the log together. -/
theorem tracks_emitAll (h : Tracks log s) (hlog : Caused log) (hops : Along Admits step s ops) :
    Tracks (log ++ (emitAll step s ops).2) (emitAll step s ops).1 ∧
      Caused (log ++ (emitAll step s ops).2) := by
  refine hops.emitted (I := fun log s => Tracks log s ∧ Caused log) ?_ ⟨h, hlog⟩
  intro log s op hop hs
  exact tracks_step hs.1 hs.2 hop

/-- The log of a run that begins with a start. -/
def runLog (raiseAfter : Nat) (s : CoverageLoop) (ops : List CoverageOp) : List CoverageOutput :=
  [.started raiseAfter] ++ (emitAll step s ops).2

theorem tracks_run (hrows : RowsFiled rows order) (raiseAfter : Nat) (now : Instant)
    (hops : Along Admits step (start rows order raiseAfter now) ops) :
    Tracks (runLog raiseAfter (start rows order raiseAfter now) ops)
        (emitAll step (start rows order raiseAfter now) ops).1 ∧
      Caused (runLog raiseAfter (start rows order raiseAfter now) ops) := by
  have hnone : ∀ pool, standing pool [] = true →
      alertOpen (start rows order raiseAfter now).manager pool = true := by
    intro pool hstanding
    exact absurd hstanding (by simp [standing])
  have hcaused : Caused [.started raiseAfter] := by
    intro before pool nodes after hsplit
    cases before <;> simp at hsplit
  exact tracks_emitAll (tracks_start hrows raiseAfter now hnone) hcaused hops

/-- Take any run of the watch and the engine, restarts included.

- After a tick with a sample, a pool has an open coverage alert only if the sample shows it
  uncovered, unless the watch is turned off while an alert is open.
- Before a Raise, this process took a sample at least the debounce earlier, and that sample and
  every later one showed the pool uncovered.
- Between two Raises of a pool there is a Clear. -/
theorem coverage_alert_has_cause {rows : List AlertHistoryRow} {order : List CheckId}
    (hrows : RowsFiled rows order) (raiseAfter : Nat) (now : Instant) {ops : List CoverageOp}
    (hops : Along Admits step (start rows order raiseAfter now) ops) :
    (∀ (s : CoverageLoop) (reads : CoverageReads) (sample : List PoolCoverage),
      s = (emitAll step (start rows order raiseAfter now) ops).1 →
      CoverageLoop.sample s.cached reads = some sample →
      s.watch.disabled = false ∨ (∀ pool, alertOpen s.manager pool = false) →
      ∀ pool, alertOpen (s.tick reads).1.manager pool = true → ShowsUncovered pool sample) ∧
    (∀ before pool nodes after,
      runLog raiseAfter (start rows order raiseAfter now) ops
        = before ++ .event (.raise pool nodes) :: after →
      ∃ now sample since, (lastProcess before).samples.getLast? = some (now, sample) ∧
        since + (lastProcess before).raiseAfter ≤ now ∧
        UncoveredSince pool since (lastProcess before).samples) ∧
    ∀ before pool nodes between nodes' after,
      runLog raiseAfter (start rows order raiseAfter now) ops
        = before ++ .event (.raise pool nodes) :: between ++ .event (.raise pool nodes') :: after →
      .event (.clear pool) ∈ between := by
  obtain ⟨htracks, hcaused⟩ := tracks_run hrows raiseAfter now hops
  refine ⟨?_, ?_, ?_⟩
  · rintro s reads sample rfl hsample hwatch pool hopen
    rw [tick_eq, hsample] at hopen
    cases hw : (emitAll step (start rows order raiseAfter now) ops).1.watch.disabled with
    | false =>
      rw [alertOpen_sampled hw htracks, Option.any_eq_true] at hopen
      obtain ⟨nodes, hnodes, -⟩ := hopen
      exact mem_uncoveredOf.1 (of_getElem?_eq_some hnodes)
    | true =>
      have hclosed := (hwatch.resolve_left (by simp [hw])) pool
      simp only [sampled, observe_of_disabled hw, List.foldl_nil] at hopen
      rw [hopen] at hclosed
      cases hclosed
  · intro before pool nodes after hlog
    exact (hcaused before pool nodes after hlog).2
  · intro before pool nodes between nodes' after hlog
    by_contra hclear
    have hfirst : standing pool (before ++ [.event (.raise pool nodes)]) = true := by
      rw [standing]
      simp [CoverageEvent.pool, CoverageEvent.isRaise]
    have hsecond := (hcaused (before ++ .event (.raise pool nodes) :: between) pool nodes' after
      hlog).1
    have hstill := standing_append hfirst hclear
    rw [List.append_assoc, List.singleton_append] at hstill
    rw [hstill] at hsecond
    cases hsecond

/-! ### A pool that loses its poller -/

/-- A tick that finds a node in the pool `tokyo`, and these pollers. -/
def tokyoReads (views : List PollerView) (now : Instant) : CoverageReads :=
  { generation := 1, counts := some (ExtTreeMap.ofList [("tokyo", 1)]), views := views
    now := now, wall := 0 }

/-- The pool is uncovered for a minute. -/
def tokyoDark : List CoverageOp := [.tick (tokyoReads [] 0), .tick (tokyoReads [] 60000)]

theorem rowsFiled_nil : RowsFiled [] [] where
  filed := by simp
  order := by
    refine ⟨nodup_nil, fun c h => ?_⟩
    exact absurd h (by simp [restore, fresh])

theorem tokyoDark_admitted : Along Admits step (start [] [] 60000 0) tokyoDark :=
  ⟨trivial, trivial, trivial⟩

theorem tokyoDark_log : runLog 60000 (start [] [] 60000 0) tokyoDark
    = [.started 60000, .sampled 0 [⟨"tokyo", 1, 0⟩]] ++
        .sampled 60000 [⟨"tokyo", 1, 0⟩] :: [.event (.raise "tokyo" 1)] := by
  decide +kernel

/-- The pool is raised after it was uncovered for a minute. -/
theorem tokyo_raise_has_cause :
    RowsFiled [] [] ∧ Along Admits step (start [] [] 60000 0) tokyoDark ∧
      ∃ now sample since,
        (lastProcess [.started 60000, .sampled 0 [⟨"tokyo", 1, 0⟩],
          .sampled 60000 [⟨"tokyo", 1, 0⟩]]).samples.getLast? = some (now, sample) ∧
        since + 60000 ≤ now ∧
        UncoveredSince "tokyo" since [(0, [⟨"tokyo", 1, 0⟩]), (60000, [⟨"tokyo", 1, 0⟩])] := by
  refine ⟨rowsFiled_nil, tokyoDark_admitted, ?_⟩
  exact (coverage_alert_has_cause rowsFiled_nil 60000 0 tokyoDark_admitted).2.1
    [.started 60000, .sampled 0 [⟨"tokyo", 1, 0⟩], .sampled 60000 [⟨"tokyo", 1, 0⟩]] "tokyo" 1 []
    tokyoDark_log

/-- The stored row of the alert. -/
def tokyoRow : AlertHistoryRow where
  subject := .pool "tokyo"
  check := coverageCheck "tokyo"
  severity := .critical
  state := .critical
  atUnixMs := 0
  metric := some (.metric .poolCoverage)
  observedValue := some (.finite 0)
  thresholdValue := some (.finite 1)
  direction := some .below
  ifindex := none
  row := none
  rowName := none

/-- The core is restarted with the watch turned off. -/
def tokyoSwitchedOff : List CoverageOp :=
  tokyoDark ++ [.restart [tokyoRow] [coverageCheck "tokyo"] 0 90000]

theorem tokyoDark_open (pool : PoolName) :
    alertOpen (emitAll step (start [] [] 60000 0) tokyoDark).1.manager pool
      = decide ("tokyo" = pool) := by
  obtain ⟨htracks, -⟩ := tracks_run rowsFiled_nil 60000 0 tokyoDark_admitted
  have hwatching : (emitAll step (start [] [] 60000 0) tokyoDark).1.watch.watching.toList
      = [("tokyo", ⟨0, true⟩)] := by decide +kernel
  rw [htracks.linked (by decide +kernel) pool, Bool.eq_iff_iff, Option.any_eq_true,
    decide_eq_true_eq]
  constructor
  · rintro ⟨watch, hwatch, -⟩
    have hmem := mem_toList_iff_getElem?_eq_some.2 hwatch
    rw [hwatching, mem_singleton] at hmem
    exact (congrArg Prod.fst hmem).symm
  · rintro rfl
    refine ⟨⟨0, true⟩, mem_toList_iff_getElem?_eq_some.1 ?_, rfl⟩
    rw [hwatching]
    exact mem_singleton.2 rfl

theorem tokyoRow_restores {m : AlertManager}
    (hopen : ∀ pool, alertOpen m pool = decide ("tokyo" = pool)) :
    Restores m [tokyoRow] [coverageCheck "tokyo"] where
  filed := by
    intro row hrow pool
    rw [mem_singleton.1 hrow]
    show coverageCheck "tokyo" = coverageCheck pool ↔ _ ∧ Subject.pool "tokyo" = .pool pool
    rw [coverageCheck_inj]
    simp [tokyoRow, AlertHistoryRow.metricName]
  order := by
    refine ⟨nodup_singleton _, fun c hc => ?_⟩
    have hrow := restored_active_isSome [tokyoRow] c
    rw [restored, hc] at hrow
    have hc : tokyoRow.check = c := by simpa using hrow
    rw [← hc]
    exact mem_singleton.2 rfl
  opened := by
    intro pool
    rw [hopen]
    show (decide (coverageCheck "tokyo" = coverageCheck pool) || false) = _
    simp [coverageCheck_inj]

/-- The alert of a pool is open when the core is restarted with the watch turned off. The pool has a
live poller again, every sample shows it covered, and the alert stays open. -/
theorem switched_off_watch_strands_alert :
    RowsFiled [] [] ∧ Along Admits step (start [] [] 60000 0) tokyoSwitchedOff ∧
      ∃ sample,
        CoverageLoop.sample (emitAll step (start [] [] 60000 0) tokyoSwitchedOff).1.cached
          (tokyoReads [⟨"tokyo", true⟩] 120000) = some sample ∧
        (∀ c ∈ sample, c.isUncovered = false) ∧
        alertOpen ((emitAll step (start [] [] 60000 0) tokyoSwitchedOff).1.tick
          (tokyoReads [⟨"tokyo", true⟩] 120000)).1.manager "tokyo" = true := by
  have hrun : Along Admits step (start [] [] 60000 0) tokyoSwitchedOff := by
    rw [tokyoSwitchedOff, along_append]
    exact ⟨tokyoDark_admitted, tokyoRow_restores tokyoDark_open, trivial⟩
  refine ⟨rowsFiled_nil, hrun, [⟨"tokyo", 1, 1⟩], ?_, by decide, ?_⟩
  · decide
  · rfl

end CoverageLoop

end Yagra.Fleet
