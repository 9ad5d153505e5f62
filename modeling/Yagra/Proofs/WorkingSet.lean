import Mathlib.Data.Finset.Card
import Yagra.Fleet.Coordinator
import Yagra.Lib.TreeMap
import Yagra.Poller.WorkingSet

/-!
# `Yagra.Proofs.WorkingSet`: what a message makes of a working set

Seen without its due times, a working set is a map from nodes to checks (`specsOf`). A delta
changes that map at the nodes it names, and a complete snapshot makes it the snapshot's map.
`applyDelta_specs` says so for any delta. `complete_group_specs` is about a group whose chunks are
those of a working set `t` of core: when none is missing, the map becomes `t`.
-/

set_option autoImplicit false

namespace Yagra.Poller.WorkingSet

open Std (ExtTreeMap)
open List Std.ExtTreeMap
open Yagra.Fleet (Coordinator)
open Yagra.Fleet.Coordinator (jobsOf chunksOf)

variable {Spec : Type} [DecidableEq Spec] [JobSpec Spec]

/-! ### Due times do not matter -/

omit [JobSpec Spec] in
theorem map_spec_reschedule (olds : List (ScheduledSpec Spec)) (specs : List Spec) :
    (reschedule olds specs).map (·.spec) = specs := by
  induction specs generalizing olds with
  | nil => rfl
  | cons spec rest ih => rw [reschedule, map_cons, ih]

omit [DecidableEq Spec] in
theorem map_spec_settle (jitter : Nat → Nat) (now : Instant) (windowMs : Nat) (base : Option Nat)
    (k : Nat) (pending : List (PendingSpec Spec)) :
    (settle jitter now windowMs base k pending).map (·.spec) = pending.map (·.spec) := by
  induction pending generalizing base k with
  | nil => rfl
  | cons p rest ih =>
    rw [settle]
    split
    · rw [map_cons, ih, map_cons]
    · rw [map_cons, ih, map_cons]

/-- A working set without its due times, at one node. -/
abbrev specsAt (nodes : ExtTreeMap NodeId (List (ScheduledSpec Spec))) (node : NodeId) :
    Option (List Spec) :=
  (nodes[node]?).map fun specs => specs.map (·.spec)

/-- The nodes a message brings have its checks, and the others are as they were. When a message
brings a node twice, one of the two counts. -/
theorem adopt_specs (jitter : NodeId → Nat → Nat) (now : Instant) (windowMs : Nat)
    (old nodes : ExtTreeMap NodeId (List (ScheduledSpec Spec))) (jobs : List (NodeJobs Spec))
    (node : NodeId) :
    (∃ nj ∈ jobs, nj.nodeId = node ∧
      specsAt (adopt jitter now windowMs nodes (staged old jobs)) node = some nj.specs) ∨
    ((∀ nj ∈ jobs, nj.nodeId ≠ node) ∧
      specsAt (adopt jitter now windowMs nodes (staged old jobs)) node = specsAt nodes node) := by
  induction jobs generalizing nodes with
  | nil => exact .inr ⟨by simp, rfl⟩
  | cons first rest ih =>
    have hcons : adopt jitter now windowMs nodes (staged old (first :: rest)) =
        adopt jitter now windowMs (nodes.insert first.nodeId (settle (jitter first.nodeId) now
          windowMs none 0 (reschedule ((old[first.nodeId]?).getD []) first.specs)))
          (staged old rest) := rfl
    rw [hcons]
    rcases ih (nodes.insert first.nodeId _) with ⟨nj, hnj, hnode, hspecs⟩ | ⟨hne, hspecs⟩
    · exact .inl ⟨nj, mem_cons_of_mem _ hnj, hnode, hspecs⟩
    · rw [hspecs]
      by_cases hfirst : first.nodeId = node
      · refine .inl ⟨first, mem_cons_self, hfirst, ?_⟩
        simp [specsAt, hfirst, map_spec_settle, map_spec_reschedule]
      · refine .inr ⟨forall_mem_cons.2 ⟨hfirst, hne⟩, ?_⟩
        simp [specsAt, ExtTreeMap.getElem?_insert, hfirst]

/-- The map of checks that a delta makes of `before`. -/
structure DeltaTo (delta : WorkingSetDelta Spec) (before after : NodeId → Option (List Spec)) :
    Prop where
  removed : ∀ node ∈ delta.removes, after node = none
  upserted : ∀ nj ∈ delta.upserts, nj.nodeId ∉ delta.removes → after nj.nodeId = some nj.specs
  other : ∀ node, node ∉ delta.removes → (∀ nj ∈ delta.upserts, nj.nodeId ≠ node) →
    after node = before node

/-- A delta that is next in sequence makes of the set what it says. -/
theorem applyDelta_fields {ws : WorkingSet Spec} {d : WorkingSetDelta Spec}
    (hepoch : ws.epoch = some d.epoch) (hseq : d.seq = ws.lastSeq + 1) (now : Instant)
    (jitter : NodeId → Nat → Nat) : (ws.applyDelta d now jitter).1.pending = ws.pending ∧
      (ws.applyDelta d now jitter).1.epoch = some d.epoch ∧
      (ws.applyDelta d now jitter).1.lastSeq = d.seq := by
  simp [applyDelta, hepoch, hseq]

theorem applyDelta_specs (ws : WorkingSet Spec) (delta : WorkingSetDelta Spec) (now : Instant)
    (jitter : NodeId → Nat → Nat) {after : NodeId → Option (List Spec)}
    (hdelta : DeltaTo delta ws.specsOf after) (hepoch : ws.epoch = some delta.epoch)
    (hseq : delta.seq = ws.lastSeq + 1) (node : NodeId) :
    (ws.applyDelta delta now jitter).1.specsOf node = after node := by
  simp only [applyDelta, hepoch, hseq, ne_eq, not_true_eq_false, if_false, specsOf,
    Lib.getElem?_foldl_erase (fun node => node), exists_eq_right]
  by_cases hrem : node ∈ delta.removes
  · rw [if_pos hrem, hdelta.removed node hrem]
    rfl
  · rw [if_neg hrem]
    rcases adopt_specs jitter now (ws.adoptWindowMs (addedCount (staged ws.nodes delta.upserts)))
      ws.nodes ws.nodes delta.upserts node with ⟨nj, hnj, rfl, hspecs⟩ | ⟨hne, hspecs⟩
    · rw [hdelta.upserted nj hnj hrem]
      exact hspecs
    · rw [hdelta.other node hrem hne]
      exact hspecs

/-! ### Chunks -/

theorem toChunks_go_flatten {α : Type} (n : Nat) (l : List α) (acc₁ : Array α)
    (acc₂ : Array (List α)) :
    (toChunks.go n l acc₁ acc₂).flatten = acc₂.toList.flatten ++ (acc₁.toList ++ l) := by
  induction l generalizing acc₁ acc₂ with
  | nil => simp [toChunks.go]
  | cons x rest ih =>
    rw [toChunks.go]
    split
    · rw [ih]
      simp
    · rw [ih]
      simp

/-- Nothing is lost when a list is cut into chunks. -/
theorem toChunks_flatten {α : Type} (n : Nat) (l : List α) : (l.toChunks n).flatten = l := by
  cases l with
  | nil => cases n <;> rfl
  | cons x rest =>
    cases n with
    | zero => simp [toChunks]
    | succ n =>
      show (toChunks.go (n + 1) rest #[x] #[]).flatten = x :: rest
      rw [toChunks_go_flatten]
      simp

variable {t : ExtTreeMap NodeId (List Spec)} {snap : WorkingSetSnapshot Spec}

omit [DecidableEq Spec] [JobSpec Spec] in
theorem mem_jobsOf {nj : NodeJobs Spec} : nj ∈ jobsOf t ↔ t[nj.nodeId]? = some nj.specs := by
  rw [jobsOf, mem_map, ← mem_toList_iff_getElem?_eq_some]
  constructor
  · rintro ⟨p, hp, rfl⟩
    exact hp
  · intro h
    exact ⟨_, h, rfl⟩

omit [DecidableEq Spec] [JobSpec Spec] in
theorem chunksOf_flatten (t : ExtTreeMap NodeId (List Spec)) : (chunksOf t).flatten = jobsOf t := by
  rw [chunksOf]
  split
  next hempty => simp [isEmpty_iff.1 hempty]
  next => exact toChunks_flatten _ _

/-- The chunks of a group are chunks of `t`. -/
structure GroupOf (t : ExtTreeMap NodeId (List Spec)) (group : PendingSnapshot Spec) : Prop where
  total : group.chunkTotal = (chunksOf t).length
  chunk : ∀ (i : Nat) nodes, group.chunks[i]? = some nodes → (chunksOf t)[i]? = some nodes

variable {group : PendingSnapshot Spec} {ws : WorkingSet Spec}

omit [DecidableEq Spec] [JobSpec Spec] in
/-- A group with as many chunks as there are has them all. -/
theorem GroupOf.mem_of_full (h : GroupOf t group) (hfull : ¬ group.chunks.size < group.chunkTotal)
    {i : Nat} (hi : i < (chunksOf t).length) : i ∈ group.chunks := by
  have hnodup : group.chunks.keys.Nodup :=
    (distinct_keys (t := group.chunks)).imp fun {a b} hab hEq => hab (by simp [hEq])
  have hsub : group.chunks.keys.toFinset ⊆ Finset.range (chunksOf t).length := by
    intro j hj
    rw [mem_toFinset, ExtTreeMap.mem_keys] at hj
    have hsome := h.chunk j _ (getElem?_eq_some_getElem hj)
    exact Finset.mem_range.2 (List.getElem?_eq_some_iff.1 hsome).1
  have hcard : (Finset.range (chunksOf t).length).card ≤ group.chunks.keys.toFinset.card := by
    rw [toFinset_card_of_nodup hnodup, length_keys, Finset.card_range, ← h.total]
    omega
  have heq := Finset.eq_of_subset_of_card_le hsub hcard
  have : i ∈ group.chunks.keys.toFinset := heq ▸ Finset.mem_range.2 hi
  rwa [mem_toFinset, ExtTreeMap.mem_keys] at this

omit [DecidableEq Spec] [JobSpec Spec] in
/-- The nodes of a complete group are those of `t`. -/
theorem GroupOf.mem_flatten (h : GroupOf t group) (hfull : ¬ group.chunks.size < group.chunkTotal)
    (nj : NodeJobs Spec) :
    nj ∈ group.chunks.toList.flatMap (·.2) ↔ t[nj.nodeId]? = some nj.specs := by
  rw [← mem_jobsOf, ← chunksOf_flatten, List.mem_flatMap, List.mem_flatten]
  constructor
  · rintro ⟨⟨i, nodes⟩, hchunk, hnj⟩
    have hi := h.chunk i nodes (mem_toList_iff_getElem?_eq_some.1 hchunk)
    exact ⟨nodes, mem_of_getElem? hi, hnj⟩
  · rintro ⟨nodes, hnodes, hnj⟩
    obtain ⟨i, hi⟩ := mem_iff_getElem?.1 hnodes
    have hin := h.mem_of_full hfull (List.getElem?_eq_some_iff.1 hi).1
    have hsome := getElem?_eq_some_getElem hin
    cases (h.chunk i _ hsome).symm.trans hi
    exact ⟨(i, _), mem_toList_iff_getElem?_eq_some.2 hsome, hnj⟩

/-- A complete snapshot of `t` makes the set `t`. -/
theorem complete_group_specs (ws : WorkingSet Spec) (h : GroupOf t group)
    (hfull : ¬ group.chunks.size < group.chunkTotal) (now : Instant) (jitter : NodeId → Nat → Nat)
    (node : NodeId) : (ws.replaceFromGroup group now jitter).specsOf node = t[node]? := by
  show specsAt (adopt jitter now _ ∅ (staged ws.nodes (group.chunks.toList.flatMap (·.2)))) node = _
  rcases adopt_specs jitter now _ ws.nodes ∅ (group.chunks.toList.flatMap (·.2)) node with
    ⟨nj, hnj, rfl, hspecs⟩ | ⟨hne, hspecs⟩
  · rw [hspecs, (h.mem_flatten hfull nj).1 hnj]
  · rw [hspecs]
    cases ht : t[node]? with
    | none => simp [specsAt]
    | some specs => exact absurd rfl (hne ⟨node, specs⟩ ((h.mem_flatten hfull _).2 ht))

/-! ### What a message does -/

omit [JobSpec Spec] [DecidableEq Spec] in
/-- The group of a chunk has its epoch and number: it is the one being put together, or it is
new and empty and of another number. -/
theorem groupFor_spec (h : ws.groupFor snap = some group) :
    group.epoch = snap.epoch ∧ group.seq = snap.seq ∧
      (ws.pending = some group ∨ (group.chunkTotal = snap.chunkTotal ∧ group.chunks = ∅ ∧
        ∀ p, ws.pending = some p → p.epoch = snap.epoch → p.seq ≠ snap.seq)) := by
  simp only [groupFor] at h
  split at h
  next hnone =>
    cases h
    exact ⟨rfl, rfl, .inr ⟨rfl, rfl, by simp [hnone]⟩⟩
  next p hp =>
    split at h
    next hsame =>
      cases h
      exact ⟨hsame.1, hsame.2, .inl hp⟩
    next hother =>
      have hne : ∀ q, ws.pending = some q → q.epoch = snap.epoch → q.seq ≠ snap.seq := by
        intro q hq hepoch hseq
        cases hp.symm.trans hq
        exact hother ⟨hepoch, hseq⟩
      split at h
      next =>
        split at h
        next =>
          cases h
          exact ⟨rfl, rfl, .inr ⟨rfl, rfl, hne⟩⟩
        next => simp at h
      next =>
        cases h
        exact ⟨rfl, rfl, .inr ⟨rfl, rfl, hne⟩⟩

/-- A message the poller must not apply: a delta of another epoch or out of sequence, and a chunk
of a snapshot that is not newer than what is applied or being put together. -/
def stale (ws : WorkingSet Spec) : SyncMsg Spec → Prop
  | .delta d => ws.epoch ≠ some d.epoch ∨ d.seq ≠ ws.lastSeq + 1
  | .snapshotChunk snap => (ws.epoch = some snap.epoch ∧ snap.seq ≤ ws.lastSeq) ∨
      ∃ p, ws.pending = some p ∧ p.epoch = snap.epoch ∧ snap.seq < p.seq

/-- The group of a chunk with the chunk in it. -/
def withChunk (group : PendingSnapshot Spec) (snap : WorkingSetSnapshot Spec) :
    PendingSnapshot Spec :=
  { group with chunks := group.chunks.insert snap.chunkIndex snap.nodes }

/-- What can come of a message. -/
inductive Applies (ws : WorkingSet Spec) (now : Instant) (jitter : NodeId → Nat → Nat) :
    SyncMsg Spec → WorkingSet Spec × ApplyOutcome → Prop
  | stale {msg : SyncMsg Spec} {outcome : ApplyOutcome} (h : ws.stale msg) :
      Applies ws now jitter msg (ws, outcome)
  | delta {d : WorkingSetDelta Spec} (hepoch : ws.epoch = some d.epoch)
      (hseq : d.seq = ws.lastSeq + 1) :
      Applies ws now jitter (.delta d) (ws.applyDelta d now jitter)
  | kept {snap : WorkingSetSnapshot Spec} {group : PendingSnapshot Spec}
      (hfresh : ¬ ws.stale (.snapshotChunk snap)) (hgroup : ws.groupFor snap = some group)
      (hsize : (withChunk group snap).chunks.size < (withChunk group snap).chunkTotal) :
      Applies ws now jitter (.snapshotChunk snap)
        ({ ws with pending := some (withChunk group snap) }, .ignored)
  | replaced {snap : WorkingSetSnapshot Spec} {group : PendingSnapshot Spec}
      (hfresh : ¬ ws.stale (.snapshotChunk snap)) (hgroup : ws.groupFor snap = some group)
      (hsize : ¬ (withChunk group snap).chunks.size < (withChunk group snap).chunkTotal) :
      Applies ws now jitter (.snapshotChunk snap)
        (ws.replaceFromGroup (withChunk group snap) now jitter, .applied)

omit [JobSpec Spec] [DecidableEq Spec] in
theorem groupFor_eq_none :
    ws.groupFor snap = none ↔
      ∃ p, ws.pending = some p ∧ p.epoch = snap.epoch ∧ snap.seq < p.seq := by
  cases hp : ws.pending with
  | none => simp [groupFor, hp]
  | some p =>
    by_cases hepoch : p.epoch = snap.epoch
    · by_cases hseq : p.seq = snap.seq
      · simp [groupFor, hp, hepoch, hseq]
      · simp only [groupFor, hp, hepoch, hseq, and_false, if_false, if_true, Option.some.injEq,
          exists_eq_left', true_and]
        split
        next hlt => simp; omega
        next hlt => simp; omega
    · simp [groupFor, hp, hepoch]

theorem apply_applies (ws : WorkingSet Spec) (msg : SyncMsg Spec) (now : Instant)
    (jitter : NodeId → Nat → Nat) : Applies ws now jitter msg (ws.apply msg now jitter) := by
  cases msg with
  | delta d =>
    by_cases hepoch : ws.epoch = some d.epoch
    · by_cases hseq : d.seq = ws.lastSeq + 1
      · exact .delta hepoch hseq
      · have heq : ws.apply (.delta d) now jitter = (ws, .needSync) := by
          simp [apply, applyDelta, hepoch, hseq]
        rw [heq]
        exact .stale (.inr hseq)
    · have heq : ws.apply (.delta d) now jitter = (ws, .needSync) := by
        simp [apply, applyDelta, hepoch]
      rw [heq]
      exact .stale (.inl hepoch)
  | snapshotChunk snap =>
    rw [apply, applySnapshotChunk]
    split
    next hold => exact .stale (.inl hold)
    next hnew =>
      cases hgroup : ws.groupFor snap with
      | none => exact .stale (.inr (groupFor_eq_none.1 hgroup))
      | some group =>
        have hfresh : ¬ ws.stale (.snapshotChunk snap) := by
          rintro (hold | hpending)
          · exact hnew hold
          · rw [← groupFor_eq_none, hgroup] at hpending
            simp at hpending
        dsimp only
        split
        next hsize => exact .kept hfresh hgroup hsize
        next hsize => exact .replaced hfresh hgroup hsize

/-- A message that must not be applied changes nothing. -/
theorem apply_stale {msg : SyncMsg Spec} (h : ws.stale msg) (now : Instant)
    (jitter : NodeId → Nat → Nat) : (ws.apply msg now jitter).1 = ws := by
  cases msg with
  | delta d =>
    rcases h with h | h
    · simp [apply, applyDelta, h]
    · by_cases hepoch : ws.epoch = some d.epoch
      · simp [apply, applyDelta, h, hepoch]
      · simp [apply, applyDelta, hepoch]
  | snapshotChunk snap =>
    rcases h with h | h
    · simp [apply, applySnapshotChunk, h]
    · rw [apply, applySnapshotChunk, groupFor_eq_none.2 h]
      split <;> rfl

end Yagra.Poller.WorkingSet
