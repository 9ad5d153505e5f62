import Yagra.Fleet.Sync
import Yagra.Proofs.Coordinator
import Yagra.Proofs.WorkingSet

/-!
# `Yagra.Proofs.Sync`: core and poller agree on the working set

Core and poller only compare two numbers: the epoch, and the sequence number of the last
message. `InSync` is the invariant that makes this enough. Every sequence number since the
poller's entry was made stands for one working set (`recorded`). Every message of this core
process that is on its way says what it takes to get to the set of its number, and what the
poller holds is the set of the number it applied last.

The invariant is kept by every step but one: a `leaving` beat ends the entry, so the numbers
start again at one. This is harmless only if nothing numbered before can still be with the
running process (`unreached`).
-/

set_option autoImplicit false

namespace Yagra.Fleet

open Std (ExtTreeMap)
open Yagra.Lib List Std.ExtTreeMap
open Yagra.Poller WorkingSet SyncSystem
open Coordinator (Plan jobsOf chunksOf snapshotOf deltaOf upserted removed syncMember
  fingerprints addressed slotOf commitPlan_cases planPool_nodup)
open WorkingSet (DeltaTo GroupOf)

variable {Spec : Type} [JobSpec Spec]

/-- Checks with equal fingerprints are equal. -/
def DistinctPrints (Spec : Type) [JobSpec Spec] : Prop :=
  ∀ a b : List Spec, JobSpec.fingerprint a = JobSpec.fingerprint b → a = b

/-! ### The working set of a sequence number -/

section
variable {assigned : List (ExtTreeMap NodeId (List Spec))} {t : ExtTreeMap NodeId (List Spec)}

/-- The working set that was assigned with a sequence number. Numbers start at one. -/
def recorded (assigned : List (ExtTreeMap NodeId (List Spec))) :
    Nat → Option (ExtTreeMap NodeId (List Spec))
  | 0 => none
  | k + 1 => assigned[k]?

omit [JobSpec Spec] in
theorem recorded_length : recorded assigned assigned.length = assigned.getLast? := by
  cases hlen : assigned.length with
  | zero => simp [recorded, length_eq_zero_iff.1 hlen]
  | succ n => rw [recorded, getLast?_eq_getElem?, hlen, Nat.add_sub_cancel]

omit [JobSpec Spec] in
theorem recorded_append_new : recorded (assigned ++ [t]) (assigned.length + 1) = some t := by
  simp [recorded]

variable {u : ExtTreeMap NodeId (List Spec)} {node : NodeId} {m : PollerId} {pool : PoolName}
  {msg : SyncMsg Spec} {epoch : Uuid}

omit [JobSpec Spec] in
/-- A number keeps its working set when more are given out. -/
theorem recorded_append {k : Nat} (h : recorded assigned k = some u) :
    recorded (assigned ++ [t]) k = some u := by
  cases k with
  | zero => exact h
  | succ k =>
    have hlt : k < assigned.length := (List.getElem?_eq_some_iff.1 h).1
    rw [recorded, getElem?_append_left hlt]
    exact h

omit [JobSpec Spec] in
theorem recorded_le {k : Nat} (h : recorded assigned k = some u) : 0 < k ∧ k ≤ assigned.length := by
  cases k with
  | zero => simp [recorded] at h
  | succ k => exact ⟨Nat.succ_pos k, (List.getElem?_eq_some_iff.1 h).1⟩

/-- The sequence number of a message. -/
def msgSeq : SyncMsg Spec → Nat
  | .snapshotChunk snap => snap.seq
  | .delta d => d.seq

/-- A message says what it takes to get to the working set of its number: a chunk of it, or the
change from the set of the number before. -/
def Faithful (assigned : List (ExtTreeMap NodeId (List Spec))) : SyncMsg Spec → Prop
  | .snapshotChunk snap => ∃ t, recorded assigned snap.seq = some t ∧
      snap.chunkTotal = (chunksOf t).length ∧ (chunksOf t)[snap.chunkIndex]? = some snap.nodes
  | .delta d => ∃ t₀ t₁, recorded assigned (d.seq - 1) = some t₀ ∧
      recorded assigned d.seq = some t₁ ∧ DeltaTo d (fun n => t₀[n]?) (fun n => t₁[n]?)

omit [JobSpec Spec] in
theorem Faithful.append (h : Faithful assigned msg) : Faithful (assigned ++ [t]) msg := by
  cases msg with
  | snapshotChunk snap =>
    obtain ⟨u, hu, hrest⟩ := h
    exact ⟨u, recorded_append hu, hrest⟩
  | delta d =>
    obtain ⟨t₀, t₁, h₀, h₁, hdelta⟩ := h
    exact ⟨t₀, t₁, recorded_append h₀, recorded_append h₁, hdelta⟩

/-! ### What core sends -/

omit [JobSpec Spec] in
theorem snapshotOf_faithful {seq : Nat} (ht : recorded assigned seq = some t)
    (hmsg : msg ∈ snapshotOf epoch pool m seq t) :
    msg.pollerId = m ∧ msg.epoch = epoch ∧ msgSeq msg = seq ∧ Faithful assigned msg := by
  obtain ⟨⟨nodes, i⟩, hchunk, rfl⟩ := mem_map.1 hmsg
  refine ⟨rfl, rfl, rfl, t, ht, rfl, ?_⟩
  exact mem_zipIdx_iff_getElem?.1 hchunk

omit [JobSpec Spec] in
theorem chunksOf_length_pos (t : ExtTreeMap NodeId (List Spec)) : 0 < (chunksOf t).length := by
  rw [chunksOf]
  split
  next => simp
  next hne =>
    rw [length_pos_iff]
    intro hnil
    have hflat := toChunks_flatten snapshotChunkNodes (jobsOf t)
    rw [hnil] at hflat
    simp [← hflat] at hne

omit [JobSpec Spec] in
theorem snapshotOf_ne_nil (epoch : Uuid) (pool : PoolName) (m : PollerId) (seq : Nat)
    (t : ExtTreeMap NodeId (List Spec)) : snapshotOf epoch pool m seq t ≠ [] := by
  have := chunksOf_length_pos t
  intro hnil
  have hlen := congrArg length hnil
  simp [snapshotOf] at hlen
  simp [hlen] at this

theorem getElem?_fingerprints (t : ExtTreeMap NodeId (List Spec)) (node : NodeId) :
    (fingerprints t)[node]? = (t[node]?).map JobSpec.fingerprint := by
  rw [fingerprints, ExtTreeMap.getElem?_map]

theorem mem_upserted {prev : Option (ExtTreeMap NodeId Nat)} :
    node ∈ upserted prev (fingerprints t) ↔
      ∃ specs, t[node]? = some specs ∧ prev.bind (·[node]?) ≠ some (JobSpec.fingerprint specs) := by
  simp only [upserted, mem_map, mem_filter, Prod.exists, decide_eq_true_eq,
    mem_toList_iff_getElem?_eq_some, getElem?_fingerprints, Option.map_eq_some_iff]
  constructor
  · rintro ⟨node, fp, ⟨⟨specs, hspecs, rfl⟩, hne⟩, rfl⟩
    exact ⟨specs, hspecs, hne⟩
  · rintro ⟨specs, hspecs, hne⟩
    exact ⟨node, _, ⟨⟨specs, hspecs, rfl⟩, hne⟩, rfl⟩

theorem mem_removed {t₀ : ExtTreeMap NodeId (List Spec)} :
    node ∈ removed (some (fingerprints t₀)) (fingerprints t) ↔
      t[node]? = none ∧ (t₀[node]?).isSome := by
  simp only [removed, Option.map_some, Option.getD_some, mem_filter, ExtTreeMap.mem_keys,
    decide_eq_true_eq, mem_iff_isSome_getElem?, getElem?_fingerprints,
    Option.isSome_map, Bool.not_eq_true, Option.isSome_eq_false_iff, Option.isNone_iff_eq_none]
  exact and_comm

/-- A delta leads from the set published before to the target, provided that equal fingerprints
mean equal checks. -/
theorem deltaOf_deltaTo (hfp : DistinctPrints Spec)
    (epoch : Uuid) (m : PollerId) (seq : Nat) (t₀ : ExtTreeMap NodeId (List Spec)) :
    DeltaTo
      { pollerId := m, epoch := epoch, seq := seq
        upserts := (upserted (some (fingerprints t₀)) (fingerprints t)).filterMap fun node =>
          (t[node]?).map fun specs => ⟨node, specs⟩
        removes := removed (some (fingerprints t₀)) (fingerprints t) }
      (fun n => t₀[n]?) (fun n => t[n]?) where
  removed := fun node hnode => (mem_removed.1 hnode).1
  upserted := by
    intro nj hnj _
    obtain ⟨node, _, hnj⟩ := mem_filterMap.1 hnj
    obtain ⟨specs, hspecs, rfl⟩ := Option.map_eq_some_iff.1 hnj
    exact hspecs
  other := by
    intro node hrem hups
    cases ht : t[node]? with
    | none =>
      cases h₀ : t₀[node]? with
      | none => rfl
      | some specs => exact absurd (mem_removed.2 ⟨ht, by simp [h₀]⟩) hrem
    | some specs =>
      -- The node is not among the upserts, so its fingerprint is the one published before.
      have hsame : (some (fingerprints t₀)).bind (·[node]?) = some (JobSpec.fingerprint specs) := by
        by_contra hne
        refine hups ⟨node, specs⟩ (mem_filterMap.2 ⟨node, ?_, by simp [ht]⟩) rfl
        exact mem_upserted.2 ⟨specs, ht, hne⟩
      rw [Option.bind_some, getElem?_fingerprints, Option.map_eq_some_iff] at hsame
      obtain ⟨specs₀, h₀, heq⟩ := hsame
      rw [h₀, hfp specs₀ specs heq]

theorem length_upserted_none : (upserted none (fingerprints t)).length = (fingerprints t).size := by
  simp [upserted]

/-- What core sends a member is faithful once the target is recorded. -/
theorem syncMember_spec (hfp : DistinctPrints Spec) {entry entry' : PollerEntry}
    {msgs : List (SyncMsg Spec)} (hseq : entry.seq = assigned.length)
    (h : syncMember epoch pool m t entry (assigned.getLast?.map fingerprints)
      = some (entry', msgs)) :
    entry'.seq = assigned.length + 1 ∧
      (msgs = snapshotOf epoch pool m (assigned.length + 1) t ∨ ∃ d, msgs = [.delta d]) ∧
      ∀ msg ∈ msgs, msg.pollerId = m ∧ msg.epoch = epoch ∧ msgSeq msg = assigned.length + 1 ∧
        Faithful (assigned ++ [t]) msg := by
  simp only [syncMember, hseq] at h
  split at h
  next => simp at h
  next hchanged =>
    split at h
    next =>
      obtain ⟨rfl, rfl⟩ := Prod.mk.inj (Option.some.inj h)
      exact ⟨rfl, .inl rfl, fun msg hmsg => snapshotOf_faithful recorded_append_new hmsg⟩
    next hsnapshot =>
      obtain ⟨rfl, rfl⟩ := Prod.mk.inj (Option.some.inj h)
      refine ⟨rfl, .inr ⟨_, rfl⟩, ?_⟩
      intro msg hmsg
      obtain rfl := mem_singleton.1 hmsg
      -- With nothing published before, everything is an upsert and a snapshot is sent.
      cases hlast : assigned.getLast? with
      | none =>
        simp only [hlast, Option.map_none, length_upserted_none, removed, Option.getD_none,
          filter_nil, length_nil, not_or, not_and, Nat.not_lt] at hchanged hsnapshot
        simp only [Bool.not_eq_true] at hsnapshot
        exact absurd hsnapshot.1 (hchanged (by omega))
      | some t₀ =>
        refine ⟨rfl, rfl, rfl, t₀, t, ?_, recorded_append_new, deltaOf_deltaTo hfp _ _ _ t₀⟩
        show recorded (assigned ++ [t]) assigned.length = some t₀
        exact recorded_append (recorded_length.trans hlast)

end

section
variable {me : PollerId} {c d : Coordinator}

/-- Core hears and decides: nothing is sent to the poller, and its numbers go on. -/
structure Quiet (me : PollerId) (c d : Coordinator) : Prop where
  epoch : d.epoch = c.epoch
  published : d.published[me]? = c.published[me]?
  gone : d.pollers[me]? = none → c.pollers[me]? = none
  seq : ∀ e, d.pollers[me]? = some e → e.seq = ((c.pollers[me]?).map (·.seq)).getD 0

omit [JobSpec Spec] in
theorem Quiet.refl (me : PollerId) (c : Coordinator) : Quiet me c c :=
  ⟨rfl, rfl, id, fun e he => by simp [he]⟩

/-- An entry written for some poller, which keeps its number or starts one. -/
theorem Quiet.insert {p : PollerId} {e : PollerEntry} {lastLive : PoolName → Option Instant}
    (he : e.seq = ((c.pollers[p]?).map (·.seq)).getD 0) :
    Quiet me c { c with pollers := c.pollers.insert p e, poolLastLive := lastLive } := by
  by_cases hp : p = me
  · subst hp
    exact ⟨rfl, rfl, by simp, by simp [he]⟩
  · refine ⟨rfl, rfl, ?_, ?_⟩
    · simp [ExtTreeMap.getElem?_insert, hp]
    · intro e' he'
      simp only [ExtTreeMap.getElem?_insert, Std.compare_eq_iff_eq, hp, if_false] at he'
      simp [he']

theorem observeHeartbeat_quiet (hb : HeartbeatMsg) (now : Instant)
    (hstay : hb.leaving = true → hb.pollerId ≠ me) :
    Quiet me c (c.observeHeartbeat hb now).1 := by
  rw [Coordinator.observeHeartbeat]
  split
  next hleaving =>
    have hne : ¬ hb.pollerId = me := hstay hleaving
    refine ⟨rfl, ?_, ?_, ?_⟩
    · simp [getElem?_erase, hne]
    · simp [getElem?_erase, hne]
    · intro e he
      simp only [getElem?_erase, Std.compare_eq_iff_eq, hne, if_false] at he
      simp [he]
  next =>
    refine Quiet.insert ?_
    cases hknown : c.pollers[hb.pollerId]? with
    | none => rfl
    | some e => rfl

theorem observeSyncRequest_quiet (req : SyncRequest) (now : Instant) :
    Quiet me c (c.observeSyncRequest req now) := by
  refine Quiet.insert ?_
  cases hknown : c.pollers[req.pollerId]? with
  | none => rfl
  | some e => rfl

theorem setPool_quiet (pollerId : PollerId) (pool : PoolName) :
    Quiet me c (c.setPool pollerId pool) := by
  rw [Coordinator.setPool]
  split
  next => exact Quiet.refl me c
  next e he =>
    split
    · exact Quiet.insert (by rw [he]; rfl)
    · exact Quiet.refl me c

end

namespace SyncSystem

variable {me : PollerId} {s : SyncSystem Spec}

/-! ### The invariant -/

/-- What a number stands for, in core, on the way and with the poller. Epochs of earlier core
processes are smaller than the one of the running process. -/
structure InSync (me : PollerId) (s : SyncSystem Spec) : Prop where
  plan : ∀ p, s.plan = some p → p.members.Nodup
  unknown : s.core.pollers[me]? = none → s.assigned = []
  seq : ∀ e, s.core.pollers[me]? = some e → e.seq = s.assigned.length
  published : s.core.published[me]? = s.assigned.getLast?.map fingerprints
  channel : ∀ m ∈ s.channel, m.epoch ≤ s.core.epoch ∧
    (m.epoch = s.core.epoch → Faithful s.assigned m)
  pending : ∀ p, s.process.ws.pending = some p → p.epoch ≤ s.core.epoch ∧
    (p.epoch = s.core.epoch → ∃ t, recorded s.assigned p.seq = some t ∧ GroupOf t p)
  holds : ∀ e, s.process.ws.epoch = some e → e ≤ s.core.epoch ∧
    (e = s.core.epoch → ∃ t, recorded s.assigned s.process.ws.lastSeq = some t ∧
      ∀ n, s.process.ws.specsOf n = t[n]?)

/-- Core and poller agree: when the poller is at core's epoch and number, it holds the working
set whose fingerprints core published with that number. -/
def Agreement (me : PollerId) (s : SyncSystem Spec) : Prop :=
  ∀ e, s.core.pollers[me]? = some e → s.process.ws.epoch = some s.core.epoch →
    s.process.ws.lastSeq = e.seq →
    ∃ t, recorded s.assigned e.seq = some t ∧ s.core.published[me]? = some (fingerprints t) ∧
      ∀ n, s.process.ws.specsOf n = t[n]?

theorem InSync.agreement (h : s.InSync me) : s.Agreement me := by
  intro e he hepoch hseq
  obtain ⟨t, ht, hspecs⟩ := (h.holds _ hepoch).2 rfl
  rw [hseq] at ht
  refine ⟨t, ht, ?_, hspecs⟩
  rw [h.published, ← recorded_length, ← h.seq e he, ht]
  rfl

theorem start_inSync (pool : PoolName) (caps : List Cap) (adoptRatePerSec : Nat) :
    (start me pool caps adoptRatePerSec : SyncSystem Spec).InSync me where
  plan := by simp [start]
  unknown := fun _ => rfl
  seq := by simp [start, Coordinator.new]
  published := by simp [start, Coordinator.new]
  channel := by simp [start]
  pending := by simp [start, new]
  holds := by simp [start, new]

/-- Steps of core that send nothing. -/
theorem InSync.quiet (h : s.InSync me) {c : Coordinator} (hq : Quiet me s.core c) :
    { s with core := c }.InSync me where
  plan := h.plan
  unknown := fun hnone => h.unknown (hq.gone hnone)
  seq := by
    intro e he
    rw [hq.seq e he]
    cases hold : s.core.pollers[me]? with
    | none => rw [h.unknown hold]; rfl
    | some e₀ => exact h.seq e₀ hold
  published := hq.published.trans h.published
  channel := by simpa only [hq.epoch] using h.channel
  pending := by simpa only [hq.epoch] using h.pending
  holds := by simpa only [hq.epoch] using h.holds

/-- What core knows and sends does not depend on the process. -/
theorem InSync.withProcess (h : s.InSync me) {p : Process Spec} {beats : List HeartbeatMsg}
    {requests : List SyncRequest} {received : List (SyncMsg Spec)}
    (hpending : ∀ g, p.ws.pending = some g → g.epoch ≤ s.core.epoch ∧
      (g.epoch = s.core.epoch → ∃ t, recorded s.assigned g.seq = some t ∧ GroupOf t g))
    (hholds : ∀ e, p.ws.epoch = some e → e ≤ s.core.epoch ∧
      (e = s.core.epoch → ∃ t, recorded s.assigned p.ws.lastSeq = some t ∧
        ∀ n, p.ws.specsOf n = t[n]?)) :
    { s with process := p, beats := beats, requests := requests, received := received }.InSync
      me :=
  ⟨h.plan, h.unknown, h.seq, h.published, h.channel, hpending, hholds⟩

/-- A reconcile gives the poller its next number, or nothing. -/
theorem InSync.commitPlan (h : s.InSync me)
    (hfp : DistinctPrints Spec) {plan : Plan Spec}
    (hplan : s.plan = some plan) : (s.commitPlan me plan).InSync me := by
  obtain ⟨hepoch, hcases⟩ := commitPlan_cases (c := s.core) (h.plan plan hplan) me
  simp only [SyncSystem.commitPlan]
  rcases hcases with ⟨hslot, hmine⟩ | ⟨entry, entry', msgs, hentry, hsync, hslot, hmine⟩
  · have hpollers : (s.core.commitPlan plan).1.pollers[me]? = s.core.pollers[me]? :=
      (Prod.mk.inj hslot).1
    have hpublished : (s.core.commitPlan plan).1.published[me]? = s.core.published[me]? :=
      (Prod.mk.inj hslot).2
    simp only [hmine, append_nil]
    refine ⟨by simp, ?_, ?_, ?_, ?_, ?_, ?_⟩
    · simpa only [hpollers] using h.unknown
    · simpa only [hpollers] using h.seq
    · simpa only [hpublished] using h.published
    · simpa only [hepoch] using h.channel
    · simpa only [hepoch] using h.pending
    · simpa only [hepoch] using h.holds
  · have hpollers : (s.core.commitPlan plan).1.pollers[me]? = some entry' :=
      (Prod.mk.inj hslot).1
    have hpublished : (s.core.commitPlan plan).1.published[me]?
        = some (fingerprints (plan.targets me)) := (Prod.mk.inj hslot).2
    rw [h.published] at hsync
    obtain ⟨hseq, hkind, hmsgs⟩ := syncMember_spec hfp (h.seq entry hentry) hsync
    -- All that is left is common to a snapshot and a delta.
    have hnext : ∀ newest, { s with
        core := (s.core.commitPlan plan).1
        plan := none
        channel := s.channel ++ msgs
        assigned := s.assigned ++ [plan.targets me]
        newest := newest }.InSync me := by
      intro newest
      refine ⟨by simp, by simp [hpollers], ?_, ?_, ?_, ?_, ?_⟩
      · simp [hpollers, hseq]
      · simp [hpublished]
      · intro m hm
        rw [hepoch]
        rcases mem_append.1 hm with hm | hm
        · exact ⟨(h.channel m hm).1, fun he => ((h.channel m hm).2 he).append⟩
        · obtain ⟨-, hmepoch, -, hfaithful⟩ := hmsgs m hm
          exact ⟨hmepoch.le, fun _ => hfaithful⟩
      · intro p hp
        rw [hepoch]
        refine ⟨(h.pending p hp).1, fun he => ?_⟩
        obtain ⟨t, ht, hgroup⟩ := (h.pending p hp).2 he
        exact ⟨t, recorded_append ht, hgroup⟩
      · intro e he
        rw [hepoch]
        refine ⟨(h.holds e he).1, fun heq => ?_⟩
        obtain ⟨t, ht, hspecs⟩ := (h.holds e he).2 heq
        exact ⟨t, recorded_append ht, hspecs⟩
    simp only [hmine]
    cases msgs with
    | nil =>
      -- A snapshot has a chunk even when it is empty.
      rcases hkind with hkind | ⟨d, hkind⟩
      · exact absurd hkind.symm (snapshotOf_ne_nil _ _ _ _ _)
      · simp at hkind
    | cons first rest =>
      cases first with
      | snapshotChunk snap => exact hnext _
      | delta d => exact hnext _

section
variable [DecidableEq Spec]

omit [DecidableEq Spec] in
/-- A chunk of this core process goes to a group of its working set. -/
theorem InSync.withChunk (h : s.InSync me) {snap : WorkingSetSnapshot Spec}
    {group : PendingSnapshot Spec} (hepoch : snap.epoch = s.core.epoch)
    (hmsg : Faithful s.assigned (.snapshotChunk snap))
    (hgroup : s.process.ws.groupFor snap = some group) :
    ∃ t, recorded s.assigned snap.seq = some t ∧ GroupOf t (withChunk group snap) := by
  obtain ⟨t, ht, htotal, hchunk⟩ := hmsg
  obtain ⟨hgepoch, hgseq, hkind⟩ := groupFor_spec hgroup
  have hold : GroupOf t group := by
    rcases hkind with hpending | ⟨hnew, hempty, -⟩
    · obtain ⟨u, hu, hgroup⟩ := (h.pending group hpending).2 (hgepoch.trans hepoch)
      rw [hgseq, ht] at hu
      rwa [Option.some.inj hu]
    · exact ⟨hnew.trans htotal, by simp [hempty]⟩
  refine ⟨t, ht, hold.total, ?_⟩
  intro i nodes hi
  simp only [WorkingSet.withChunk, ExtTreeMap.getElem?_insert, Std.compare_eq_iff_eq] at hi
  split at hi
  next heq =>
    subst heq
    rw [← hi]
    exact hchunk
  next => exact hold.chunk i nodes hi

/-- A message reaches the process. -/
theorem InSync.receive (h : s.InSync me) {msg : SyncMsg Spec}
    (hmsg : msg.epoch ≤ s.core.epoch ∧ (msg.epoch = s.core.epoch → Faithful s.assigned msg))
    (now : Instant) (jitter : NodeId → Nat → Nat) : (s.receive me msg now jitter).InSync me := by
  have happly := apply_applies s.process.ws msg now jitter
  simp only [SyncSystem.receive]
  generalize s.process.ws.apply msg now jitter = result at happly
  cases happly with
  | stale => exact h.withProcess h.pending h.holds
  | @delta d hepoch hseq =>
    obtain ⟨hpending, hheld, hlast⟩ := applyDelta_fields hepoch hseq now jitter
    refine h.withProcess ?_ ?_
    · simpa only [hpending] using h.pending
    · intro e he
      obtain rfl : d.epoch = e := Option.some.inj (hheld.symm.trans he)
      refine ⟨hmsg.1, fun heq => ?_⟩
      obtain ⟨t₀, t₁, h₀, h₁, hdelta⟩ := hmsg.2 heq
      obtain ⟨u, hu, hspecs⟩ := (h.holds _ hepoch).2 heq
      -- The delta starts from the set the poller holds.
      rw [hseq, Nat.add_sub_cancel, hu] at h₀
      cases h₀
      rw [← funext hspecs] at hdelta
      refine ⟨t₁, by rwa [hlast], fun n => ?_⟩
      exact applyDelta_specs _ d now jitter hdelta hepoch hseq n
  | @kept snap group _ hgroup _ =>
    refine h.withProcess ?_ h.holds
    intro g hg
    cases hg
    obtain ⟨hgepoch, hgseq, -⟩ := groupFor_spec hgroup
    refine ⟨hgepoch.le.trans hmsg.1, fun heq => ?_⟩
    have hsnap : snap.epoch = s.core.epoch := hgepoch.symm.trans heq
    obtain ⟨t, ht, hof⟩ := h.withChunk hsnap (hmsg.2 hsnap) hgroup
    exact ⟨t, by rw [← ht]; exact congrArg _ hgseq, hof⟩
  | @replaced snap group _ hgroup hsize =>
    obtain ⟨hgepoch, hgseq, -⟩ := groupFor_spec hgroup
    refine h.withProcess (by simp [replaceFromGroup]) ?_
    intro e he
    cases he
    refine ⟨hgepoch.le.trans hmsg.1, fun heq => ?_⟩
    have hsnap : snap.epoch = s.core.epoch := hgepoch.symm.trans heq
    obtain ⟨t, ht, hof⟩ := h.withChunk hsnap (hmsg.2 hsnap) hgroup
    refine ⟨t, ?_, fun n => complete_group_specs _ hof hsize now jitter n⟩
    show recorded s.assigned group.seq = some t
    rw [hgseq, ht]

/-- Nothing of this core process is with the running process or on its way to it. -/
def unreached (s : SyncSystem Spec) : Bool :=
  s.process.ws.epoch.isNone && s.process.ws.pending.isNone && s.channel.isEmpty

/-- A `leaving` beat is heard while nothing numbered before it can reach the running process. -/
def Op.settled (s : SyncSystem Spec) : Op Spec → Bool
  | .hearBeat _ => s.beats.head?.all fun hb => !hb.leaving || s.unreached
  | _ => true

variable {hb : HeartbeatMsg}

omit [DecidableEq Spec] in
/-- A `leaving` beat ends the entry and starts the numbers again. -/
theorem InSync.leave (h : s.InSync me) (hout : s.unreached = true) (hid : hb.pollerId = me)
    (hleaving : hb.leaving = true) (now : Instant) : (s.observeBeat me hb now).InSync me := by
  simp only [unreached, Bool.and_eq_true, Option.isNone_iff_eq_none, List.isEmpty_iff] at hout
  obtain ⟨⟨hepoch, hpending⟩, hchannel⟩ := hout
  simp only [observeBeat, hleaving, hid, decide_true, Bool.and_self, if_true]
  refine ⟨h.plan, fun _ => rfl, ?_, ?_, by simp [hchannel], by simp [hpending], by simp [hepoch]⟩
  · simp [Coordinator.observeHeartbeat, hleaving, hid]
  · simp [Coordinator.observeHeartbeat, hleaving, hid]

omit [DecidableEq Spec] in
theorem InSync.stay (h : s.InSync me) (hstay : hb.leaving = true → hb.pollerId ≠ me)
    (now : Instant) : (s.observeBeat me hb now).InSync me := by
  have hno : (hb.leaving && decide (hb.pollerId = me)) = false := by
    cases hl : hb.leaving with
    | false => rfl
    | true => simpa using hstay hl
  simp only [observeBeat, hno, Bool.false_eq_true, if_false]
  exact h.quiet (observeHeartbeat_quiet hb now hstay)

variable {ring : Ring}

/-- Every step keeps the invariant, given that a `leaving` beat comes when nothing numbered
before it can reach the running process. -/
theorem InSync.step (h : s.InSync me)
    (hfp : DistinctPrints Spec)
    (hbeats : ∀ hb ∈ s.beats, hb.pollerId = me) (op : Op Spec) (hop : op.settled s = true) :
    (s.step me ring op).InSync me := by
  cases op with
  | beat | loseBeat i | loseRequest i => exact h.withProcess h.pending h.holds
  | restart graceful pool caps adoptRatePerSec =>
    exact h.withProcess (by simp [new]) (by simp [new])
  | hearBeat now =>
    simp only [SyncSystem.step]
    split
    next => exact h
    next hb rest hbs =>
      have hrest : { s with beats := rest }.InSync me := h.withProcess h.pending h.holds
      by_cases hleaving : hb.leaving = true
      · have hout : s.unreached = true := by
          simpa [Op.settled, hbs, hleaving] using hop
        exact hrest.leave hout (hbeats hb (by simp [hbs])) hleaving now
      · exact hrest.stay (fun hl => absurd hl hleaving) now
  | hearRequest now =>
    simp only [SyncSystem.step]
    split
    next => exact h
    next req rest hreqs =>
      have hrest : { s with requests := rest }.InSync me := h.withProcess h.pending h.holds
      exact hrest.quiet (observeSyncRequest_quiet req now)
  | otherBeat hb now =>
    simp only [SyncSystem.step]
    split
    next => exact h
    next hne => exact h.stay (fun _ => hne) now
  | otherRequest req now =>
    simp only [SyncSystem.step]
    split
    next => exact h
    next => exact h.quiet (observeSyncRequest_quiet req now)
  | setPool pollerId pool | adoptPool pollerId pool => exact h.quiet (setPool_quiet pollerId pool)
  | plan pool desired now =>
    simp only [SyncSystem.step]
    split
    next => exact h
    next =>
      exact ⟨fun p hp => planPool_nodup hp, h.unknown, h.seq, h.published, h.channel, h.pending,
        h.holds⟩
  | commit =>
    simp only [SyncSystem.step]
    split
    next => exact h
    next plan hplan => exact h.commitPlan hfp hplan
  | deliver now jitter =>
    simp only [SyncSystem.step]
    split
    next => exact h
    next msg rest hchannel =>
      have hrest : { s with channel := rest }.InSync me :=
        ⟨h.plan, h.unknown, h.seq, h.published,
          fun m hm => h.channel m (by simp [hchannel, show m ∈ rest from hm]), h.pending, h.holds⟩
      exact hrest.receive (h.channel msg (by simp [hchannel])) now jitter
  | lose i =>
    exact ⟨h.plan, h.unknown, h.seq, h.published,
      fun m hm => h.channel m (mem_of_mem_eraseIdx hm), h.pending, h.holds⟩
  | coreRestart =>
    -- Everything of the old process has a smaller epoch than the new one.
    have hold : ∀ {e : Nat} {P : Prop}, e ≤ s.core.epoch →
        e ≤ s.core.epoch + 1 ∧ (e = s.core.epoch + 1 → P) := fun hle =>
      ⟨Nat.le_succ_of_le hle, fun heq => absurd heq (Nat.lt_succ_of_le hle).ne⟩
    exact ⟨by simp [SyncSystem.step], fun _ => rfl, by simp [SyncSystem.step, Coordinator.new],
      by simp [SyncSystem.step, Coordinator.new], fun m hm => hold (h.channel m hm).1,
      fun p hp => hold (h.pending p hp).1, fun e he => hold (h.holds e he).1⟩

/-! ### Every run -/

/-- The process stops with a `leaving` beat. -/
def Op.graceful : Op Spec → Bool
  | .restart graceful _ _ _ => graceful
  | _ => false

/-- The heartbeats of the poller are its own, and only a process that stops in good order says
that it leaves. -/
theorem mem_beats_step {op : Op Spec} (h : hb ∈ (s.step me ring op).beats) :
    hb ∈ s.beats ∨ (hb.pollerId = me ∧ (hb.leaving = true → op.graceful = true)) := by
  cases op with
  | beat =>
    rcases mem_append.1 h with h | h
    · exact .inl h
    · rw [mem_singleton.1 h]
      exact .inr ⟨rfl, by simp [Process.heartbeat]⟩
  | restart graceful pool caps adoptRatePerSec =>
    rcases mem_append.1 h with h | h
    · exact .inl h
    · split at h
      next hgraceful =>
        rw [mem_singleton.1 h]
        exact .inr ⟨rfl, fun _ => hgraceful⟩
      next => simp at h
  | hearBeat now =>
    simp only [step] at h
    split at h
    next => exact .inl h
    next first rest hbs =>
      have hrest : hb ∈ rest := by
        simp only [observeBeat] at h
        split at h <;> exact h
      exact .inl (by simp [hbs, hrest])
  | loseBeat i => exact .inl (mem_of_mem_eraseIdx h)
  | hearRequest now | otherRequest req now | plan pool desired now | deliver now jitter =>
    simp only [step] at h
    split at h <;> exact .inl h
  | otherBeat other now =>
    simp only [step, observeBeat] at h
    split at h
    next => exact .inl h
    next => split at h <;> exact .inl h
  | commit =>
    simp only [step, commitPlan] at h
    split at h
    next => exact .inl h
    next => split at h <;> exact .inl h
  | loseRequest i => exact .inl h
  | setPool pollerId pool => exact .inl h
  | adoptPool pollerId pool => exact .inl h
  | lose i => exact .inl h
  | coreRestart => exact .inl h

/-- Without `leaving` beats core and poller agree in every state, and a delta of another epoch or
out of sequence, or a chunk of a snapshot that is not newer, changes nothing. -/
theorem sync_agreement (hfp : DistinctPrints Spec)
    (me : PollerId) (ring : Ring) (pool : PoolName) (caps : List Cap) (adoptRatePerSec : Nat)
    (ops : List (Op Spec)) (hstay : ∀ op ∈ ops, op.graceful = false) :
    let s := ops.foldl (step me ring) (start me pool caps adoptRatePerSec)
    s.Agreement me ∧ ∀ msg now jitter, s.process.ws.stale msg →
      (s.receive me msg now jitter).process.ws = s.process.ws := by
  have hmeets : Meets (fun _ op => op.graceful = false) (step me ring)
      (start me pool caps adoptRatePerSec) ops := Meets.of_forall hstay _
  have hfinal := hmeets.invariant
    (I := fun s : SyncSystem Spec =>
      s.InSync me ∧ ∀ hb ∈ s.beats, hb.pollerId = me ∧ hb.leaving = false) ?_
    ⟨start_inSync pool caps adoptRatePerSec, by simp [start]⟩
  · refine ⟨hfinal.1.agreement, ?_⟩
    intro msg now jitter hstale
    exact apply_stale hstale now jitter
  · intro s op hop ⟨hs, hbeats⟩
    refine ⟨hs.step hfp (fun hb hhb => (hbeats hb hhb).1) op ?_, ?_⟩
    · cases op with
      | hearBeat now =>
        cases hbs : s.beats with
        | nil => simp [Op.settled, hbs]
        | cons hb rest => simp [Op.settled, hbs, (hbeats hb (by simp [hbs])).2]
      | _ => rfl
    · intro hb hhb
      rcases mem_beats_step hhb with hold | ⟨hid, hleaving⟩
      · exact hbeats hb hold
      · exact ⟨hid, by simpa [hop] using hleaving⟩

end

end SyncSystem

/-! ### Two core processes -/

theorem distinctPrints_unit : DistinctPrints Unit := by
  intro a b hab
  exact ext_get hab fun _ _ _ => rfl

namespace SyncSystem

/-- The first member of a pool owns every node. -/
def firstOwns : Ring := fun members _ => members.head?

/-- A reconcile of the pool `hq` with one check on each of some nodes. -/
def reconcile (nodes : List NodeId) : List (Op Unit) :=
  [.plan "hq" (ExtTreeMap.ofList (nodes.map fun n => (n, [()]))) 0, .commit]

def deliverNext : Op Unit := .deliver 0 fun _ _ => 0

/-- The poller is handed node 1, and its core process is replaced by one that hands it node 2. -/
def newCore : List (Op Unit) :=
  [.hearRequest 0] ++ reconcile [1] ++ [deliverNext, .coreRestart, .beat, .hearBeat 0]
    ++ reconcile [2]

theorem sync_agreement_new_core :
    let s := (newCore ++ [deliverNext]).foldl (step 7 firstOwns) (start 7 "hq" [] 0)
    s.Agreement 7 ∧ s.process.ws.epoch = some 1 ∧ s.process.ws.lastSeq = 1 ∧
      (s.core.pollers[7]?).map (·.seq) = some 1 ∧ s.process.ws.specsOf 2 = some [()] :=
  ⟨(sync_agreement distinctPrints_unit 7 firstOwns "hq" [] 0 (newCore ++ [deliverNext])
    (by decide)).1, by decide +kernel⟩

/-- A snapshot of another epoch does change the set: it is how a poller follows a new core
process. -/
theorem snapshot_of_new_core_applied :
    let s := newCore.foldl (step 7 firstOwns) (start 7 "hq" [] 0)
    s.channel.map (·.epoch) = [1] ∧ s.process.ws.epoch = some 0 ∧
      s.process.ws.specsOf 1 = some [()] ∧
      (s.step 7 firstOwns deliverNext).process.ws.specsOf 1 = none ∧
      (s.step 7 firstOwns deliverNext).process.ws.specsOf 2 = some [()] := by
  decide +kernel

end SyncSystem

end Yagra.Fleet
