import Yagra.Proofs.Sync

/-!
# `Yagra.Proofs.Snapshots`: a snapshot that arrives is not thrown away

The poller ignores a snapshot whose number is not above the one it applied last. `Ordered` is
the invariant by which this never hits a snapshot that is still on its way: messages come in the
order of their numbers, and each is ahead of what the process has (`Ahead`). What has reached
the process was applied, superseded or kept (`Taken`). So when the last chunk of the newest
snapshot arrives, the group is complete and the set becomes the snapshot's (`Landed`).

As in `Yagra.Proofs.Sync`, one step breaks this: a `leaving` beat that is heard after core has
already sent something to the next process. Core then counts from one again, and the process
takes the next snapshots for old ones.
-/

set_option autoImplicit false

namespace Yagra.Fleet

open Std (ExtTreeMap)
open Yagra.Lib List Std.ExtTreeMap
open Yagra.Poller WorkingSet
open Coordinator (Plan chunksOf snapshotOf)
open WorkingSet (GroupOf withChunk)

variable {Spec : Type}

/-! ### The order of messages -/

/-- The order in which core sends messages: by number, and the chunks of a snapshot by index. -/
def Before : SyncMsg Spec → SyncMsg Spec → Prop
  | .snapshotChunk a, .snapshotChunk b =>
    a.seq < b.seq ∨ (a.seq = b.seq ∧ a.chunkIndex < b.chunkIndex)
  | .snapshotChunk a, .delta b => a.seq < b.seq
  | .delta a, .snapshotChunk b => a.seq < b.seq
  | .delta a, .delta b => a.seq < b.seq

variable {a b : SyncMsg Spec}

theorem Before.of_lt (h : msgSeq a < msgSeq b) : Before a b := by
  cases a <;> cases b
  · exact .inl h
  · exact h
  · exact h
  · exact h

theorem Before.le (h : Before a b) : msgSeq a ≤ msgSeq b := by
  cases a <;> cases b
  · rcases h with h | ⟨h, -⟩
    · exact h.le
    · exact h.le
  · exact le_of_lt h
  · exact le_of_lt h
  · exact le_of_lt h

/-- A delta is alone with its number. -/
theorem Before.lt_of_delta {d : WorkingSetDelta Spec} (h : Before (.delta d) b) :
    d.seq < msgSeq b := by
  cases b <;> exact h

/-- The chunks of a snapshot are sent in order. -/
theorem snapshotOf_sorted (epoch : Uuid) (pool : PoolName) (m : PollerId) (seq : Nat)
    (t : ExtTreeMap NodeId (List Spec)) : (snapshotOf epoch pool m seq t).Pairwise Before := by
  rw [snapshotOf, pairwise_map]
  have hidx : ((chunksOf t).zipIdx.map Prod.snd).Pairwise (· < ·) := by
    rw [zipIdx_map_snd]
    exact pairwise_lt_range'
  rw [pairwise_map] at hidx
  exact hidx.imp fun {a b} hlt => .inr ⟨rfl, hlt⟩

/-! ### What the process has -/

/-- A chunk that reached the process is part of what it applied, was superseded, or is kept. -/
def Taken (ws : WorkingSet Spec) (snap : WorkingSetSnapshot Spec) : Prop :=
  (ws.epoch ≠ none ∧ snap.seq ≤ ws.lastSeq) ∨
    ∃ p, ws.pending = some p ∧ (snap.seq < p.seq ∨ (snap.seq = p.seq ∧ snap.chunkIndex ∈ p.chunks))

/-- A message is newer than what the process applied, and not part of what it keeps. -/
structure Ahead (ws : WorkingSet Spec) (msg : SyncMsg Spec) : Prop where
  applied : ws.epoch ≠ none → ws.lastSeq < msgSeq msg
  pending : ∀ p, ws.pending = some p → p.seq ≤ msgSeq msg
  chunk : ∀ p, ws.pending = some p → ∀ snap, msg = .snapshotChunk snap → snap.seq = p.seq →
    snap.chunkIndex ∉ p.chunks

/-- The process is not ahead of a message. -/
structure UpTo (ws : WorkingSet Spec) (k : Nat) : Prop where
  applied : ws.epoch ≠ none → ws.lastSeq ≤ k
  pending : ∀ p, ws.pending = some p → p.seq ≤ k

section
variable {ws : WorkingSet Spec} {snap : WorkingSetSnapshot Spec} {group : PendingSnapshot Spec}

theorem Ahead.upTo {msg : SyncMsg Spec} (h : Ahead ws msg) : UpTo ws (msgSeq msg) :=
  ⟨fun he => (h.applied he).le, h.pending⟩

/-- A chunk that is ahead is not stale. -/
theorem Ahead.not_stale (h : Ahead ws (.snapshotChunk snap)) :
    ¬ ws.stale (.snapshotChunk snap) := by
  rintro (⟨hepoch, hle⟩ | ⟨p, hp, -, hlt⟩)
  · have := h.applied (by simp [hepoch])
    exact absurd hle (Nat.not_le.2 this)
  · exact absurd hlt (Nat.not_lt.2 (h.pending p hp))

/-- What was taken before a chunk is still taken when the chunk's group is put in its place. -/
theorem Taken.superseded {old : WorkingSetSnapshot Spec} (h : Taken ws old)
    (hahead : Ahead ws (.snapshotChunk snap)) (hgroup : ws.groupFor snap = some group)
    (hepoch : ∀ p, ws.pending = some p → p.epoch = snap.epoch) :
    (ws.epoch ≠ none ∧ old.seq ≤ ws.lastSeq) ∨ old.seq < snap.seq ∨
      (old.seq = snap.seq ∧ old.chunkIndex ∈ (withChunk group snap).chunks) := by
  obtain ⟨-, hgseq, hkind⟩ := groupFor_spec hgroup
  rcases h with h | ⟨p, hp, h⟩
  · exact .inl h
  · have hle : p.seq ≤ snap.seq := hahead.pending p hp
    rcases h with h | ⟨hseq, hidx⟩
    · exact .inr (.inl (h.trans_le hle))
    · rcases hkind with hpending | ⟨-, -, hne⟩
      · cases hp.symm.trans hpending
        refine .inr (.inr ⟨hseq.trans hgseq, ?_⟩)
        exact mem_insert.2 (.inr hidx)
      · have : p.seq ≠ snap.seq := hne p hp (hepoch p hp)
        exact .inr (.inl (by omega))

/-- A later chunk of the same snapshot is not in the group yet. -/
theorem notMem_withChunk {later : WorkingSetSnapshot Spec}
    (hahead : Ahead ws (.snapshotChunk later))
    (hgroup : ws.groupFor snap = some group) (hseq : later.seq = snap.seq)
    (hidx : snap.chunkIndex < later.chunkIndex) :
    later.chunkIndex ∉ (withChunk group snap).chunks := by
  obtain ⟨-, hgseq, hkind⟩ := groupFor_spec hgroup
  intro hmem
  rcases mem_insert.1 hmem with hsame | hold
  · have := Std.compare_eq_iff_eq.1 hsame
    omega
  · rcases hkind with hpending | ⟨-, hempty, -⟩
    · exact hahead.chunk group hpending later rfl (hseq.trans hgseq.symm) hold
    · simp [hempty] at hold

end

namespace SyncSystem

variable {me : PollerId} {s : SyncSystem Spec}

/-! ### The invariant -/

/-- All is of one core process, messages are in order and ahead of the process, and what reached
the process was not lost. -/
structure Ordered (s : SyncSystem Spec) : Prop where
  channelEpoch : ∀ m ∈ s.channel, m.epoch = s.core.epoch
  heldEpoch : ∀ e, s.process.ws.epoch = some e → e = s.core.epoch
  pendingEpoch : ∀ p, s.process.ws.pending = some p → p.epoch = s.core.epoch
  sorted : s.channel.Pairwise Before
  ahead : ∀ m ∈ s.channel, Ahead s.process.ws m
  incomplete : ∀ p, s.process.ws.pending = some p → p.chunks.size < p.chunkTotal
  taken : ∀ snap, .snapshotChunk snap ∈ s.received → Taken s.process.ws snap
  last : ∀ m, s.received.getLast? = some m → UpTo s.process.ws (msgSeq m)
  newest : ∀ n, s.newest = some n → recorded s.assigned n.seq = some n.target

theorem start_ordered (pool : PoolName) (caps : List Cap) (adoptRatePerSec : Nat) :
    (start me pool caps adoptRatePerSec : SyncSystem Spec).Ordered where
  channelEpoch := by simp [start]
  heldEpoch := by simp [start, new]
  pendingEpoch := by simp [start, new]
  sorted := List.Pairwise.nil
  ahead := by simp [start]
  incomplete := by simp [start, new]
  taken := by simp [start]
  last := by simp [start]
  newest := by simp [start]

variable {c : Coordinator} {beats : List HeartbeatMsg} {requests : List SyncRequest}

/-- Steps of core that send nothing, and steps of the two other streams. -/
theorem Ordered.quiet (h : s.Ordered) {plan : Option (Plan Spec)}
    (hepoch : c.epoch = s.core.epoch) :
    { s with core := c, plan := plan, beats := beats, requests := requests }.Ordered :=
  ⟨by simpa only [hepoch] using h.channelEpoch, by simpa only [hepoch] using h.heldEpoch,
    by simpa only [hepoch] using h.pendingEpoch, h.sorted, h.ahead, h.incomplete, h.taken, h.last,
    h.newest⟩

/-- A new process has nothing. -/
theorem Ordered.restart (h : s.Ordered) {p : Process Spec} (hepoch : p.ws.epoch = none)
    (hpending : p.ws.pending = none) :
    { s with process := p, beats := beats, requests := requests, received := [] }.Ordered where
  channelEpoch := h.channelEpoch
  heldEpoch := by simp [hepoch]
  pendingEpoch := by simp [hpending]
  sorted := h.sorted
  ahead := fun _ _ => ⟨by simp [hepoch], by simp [hpending], by simp [hpending]⟩
  incomplete := by simp [hpending]
  taken := by simp
  last := by simp
  newest := h.newest

/-- A `leaving` beat is heard while nothing has reached the running process. -/
theorem Ordered.leave (h : s.Ordered) (hout : s.unreached = true) :
    { s with core := c, assigned := [], newest := none }.Ordered := by
  simp only [unreached, Bool.and_eq_true, Option.isNone_iff_eq_none, List.isEmpty_iff] at hout
  obtain ⟨⟨hepoch, hpending⟩, hchannel⟩ := hout
  refine ⟨by simp [hchannel], by simp [hepoch], by simp [hpending], h.sorted, h.ahead,
    h.incomplete, h.taken, h.last, by simp⟩

theorem observeHeartbeat_epoch (c : Coordinator) (hb : HeartbeatMsg) (now : Instant) :
    (c.observeHeartbeat hb now).1.epoch = c.epoch := by
  rw [Coordinator.observeHeartbeat]
  split <;> rfl

theorem setPool_epoch (c : Coordinator) (pollerId : PollerId) (pool : PoolName) :
    (c.setPool pollerId pool).epoch = c.epoch := by
  rw [Coordinator.setPool]
  split
  · rfl
  · split <;> rfl

section
variable [JobSpec Spec]

/-- The numbers given out so far bound everything. -/
theorem InSync.upTo_length (h : s.InSync me) (ho : s.Ordered) :
    UpTo s.process.ws s.assigned.length where
  applied := by
    intro hne
    obtain ⟨e, he⟩ := Option.ne_none_iff_exists'.1 hne
    obtain ⟨t, ht, -⟩ := (h.holds e he).2 (ho.heldEpoch e he)
    exact (recorded_le ht).2
  pending := by
    intro p hp
    obtain ⟨t, ht, -⟩ := (h.pending p hp).2 (ho.pendingEpoch p hp)
    exact (recorded_le ht).2

theorem InSync.channel_le (h : s.InSync me) (ho : s.Ordered) {m : SyncMsg Spec}
    (hm : m ∈ s.channel) : msgSeq m ≤ s.assigned.length := by
  have hfaithful := (h.channel m hm).2 (ho.channelEpoch m hm)
  cases m with
  | snapshotChunk snap =>
    obtain ⟨t, ht, -⟩ := hfaithful
    exact (recorded_le ht).2
  | delta d =>
    obtain ⟨_, t, -, ht, -⟩ := hfaithful
    exact (recorded_le ht).2

/-- What core sends comes after everything it sent before. -/
theorem Ordered.commitPlan (h : s.InSync me) (ho : s.Ordered)
    (hfp : DistinctPrints Spec) {plan : Plan Spec}
    (hplan : s.plan = some plan) : (s.commitPlan me plan).Ordered := by
  obtain ⟨hepoch, hcases⟩ := Coordinator.commitPlan_cases (c := s.core) (h.plan plan hplan) me
  simp only [SyncSystem.commitPlan]
  rcases hcases with ⟨-, hmine⟩ | ⟨entry, entry', msgs, hentry, hsync, -, hmine⟩
  · simp only [hmine, append_nil]
    exact ho.quiet hepoch
  · rw [h.published] at hsync
    obtain ⟨-, hkind, hmsgs⟩ := syncMember_spec hfp (h.seq entry hentry) hsync
    have hbound := h.upTo_length ho
    have hnext : ∀ newest : Option (SentSnapshot Spec),
        (∀ n, newest = some n → recorded (s.assigned ++ [plan.targets me]) n.seq = some n.target) →
        { s with
          core := (s.core.commitPlan plan).1
          plan := none
          channel := s.channel ++ msgs
          assigned := s.assigned ++ [plan.targets me]
          newest := newest }.Ordered := by
      intro newest hnewest
      refine ⟨?_, by simpa only [hepoch] using ho.heldEpoch,
        by simpa only [hepoch] using ho.pendingEpoch, ?_, ?_, ho.incomplete, ho.taken, ho.last,
        hnewest⟩
      · intro m hm
        rw [hepoch]
        rcases mem_append.1 hm with hm | hm
        · exact ho.channelEpoch m hm
        · exact (hmsgs m hm).2.1
      · refine pairwise_append.2 ⟨ho.sorted, ?_, ?_⟩
        · rcases hkind with rfl | ⟨d, rfl⟩
          · exact snapshotOf_sorted _ _ _ _ _
          · exact pairwise_singleton _ _
        · intro a ha b hb
          have hle := h.channel_le ho ha
          have hseq := (hmsgs b hb).2.2.1
          exact Before.of_lt (by omega)
      · intro m hm
        rcases mem_append.1 hm with hm | hm
        · exact ho.ahead m hm
        · have hseq := (hmsgs m hm).2.2.1
          refine ⟨fun he => ?_, fun p hp => ?_, fun p hp snap hsnap heq => ?_⟩
          · rw [hseq]
            exact Nat.lt_succ_of_le (hbound.applied he)
          · rw [hseq]
            exact Nat.le_succ_of_le (hbound.pending p hp)
          · have hle := hbound.pending p hp
            rw [hsnap] at hseq
            have hseq : snap.seq = s.assigned.length + 1 := hseq
            omega
    have hold : ∀ n, s.newest = some n →
        recorded (s.assigned ++ [plan.targets me]) n.seq = some n.target :=
      fun n hn => recorded_append (ho.newest n hn)
    simp only [hmine]
    cases msgs with
    | nil =>
      rcases hkind with hkind | ⟨d, hkind⟩
      · exact absurd hkind.symm (snapshotOf_ne_nil _ _ _ _ _)
      · simp at hkind
    | cons first rest =>
      cases first with
      | delta d => exact hnext _ hold
      | snapshotChunk snap =>
        refine hnext _ ?_
        intro n hn
        cases hn
        have hseq : snap.seq = s.assigned.length + 1 :=
          (hmsgs (.snapshotChunk snap) mem_cons_self).2.2.1
        show recorded _ snap.seq = some (plan.targets me)
        rw [hseq]
        exact recorded_append_new

variable [DecidableEq Spec]

/-- What holds of the process and the rest of the channel after a message. -/
structure Progress (ws ws' : WorkingSet Spec) (msg : SyncMsg Spec) (rest : List (SyncMsg Spec)) :
    Prop where
  ahead : ∀ m ∈ rest, Ahead ws' m
  incomplete : ∀ p, ws'.pending = some p → p.chunks.size < p.chunkTotal
  keeps : ∀ snap, Taken ws snap → Taken ws' snap
  takes : ∀ snap, msg = .snapshotChunk snap → Taken ws' snap
  upTo : UpTo ws' (msgSeq msg)
  heldEpoch : ∀ e, ws'.epoch = some e → ws.epoch = some e ∨ e = msg.epoch
  pendingEpoch : ∀ p, ws'.pending = some p → ws.pending = some p ∨ p.epoch = msg.epoch

section

variable (h : s.InSync me) (ho : s.Ordered) {msg : SyncMsg Spec} {rest : List (SyncMsg Spec)}
  (hchannel : s.channel = msg :: rest) (now : Instant) (jitter : NodeId → Nat → Nat)

include h ho hchannel

/-- One message in order. -/
theorem Ordered.progress :
    Progress s.process.ws (s.process.ws.apply msg now jitter).1 msg rest := by
  have hmem : msg ∈ s.channel := by simp [hchannel]
  have hfirst : Ahead s.process.ws msg := ho.ahead msg hmem
  have hrest : ∀ m ∈ rest, Ahead s.process.ws m := fun m hm => ho.ahead m (by simp [hchannel, hm])
  have hbefore : ∀ m ∈ rest, Before msg m := by
    have := ho.sorted
    rw [hchannel, pairwise_cons] at this
    exact this.1
  have hepochs : ∀ p, s.process.ws.pending = some p → p.epoch = msg.epoch := fun p hp =>
    (ho.pendingEpoch p hp).trans (ho.channelEpoch _ hmem).symm
  have happly := apply_applies s.process.ws msg now jitter
  generalize s.process.ws.apply msg now jitter = result at happly
  cases happly with
  | stale hstale =>
    refine ⟨hrest, ho.incomplete, fun _ ht => ht, ?_, hfirst.upTo, fun _ he => .inl he,
      fun _ hp => .inl hp⟩
    -- A chunk in order is never stale.
    rintro snap rfl
    exact absurd hstale hfirst.not_stale
  | @delta d hepoch hseq =>
    obtain ⟨hpending, hheld, hlast⟩ := applyDelta_fields hepoch hseq now jitter
    refine ⟨?_, by simpa only [hpending] using ho.incomplete, ?_, by simp, ?_, ?_, ?_⟩
    · intro m hm
      refine ⟨fun _ => ?_, ?_, ?_⟩
      · rw [hlast]
        exact (hbefore m hm).lt_of_delta
      · simpa only [hpending] using (hrest m hm).pending
      · simpa only [hpending] using (hrest m hm).chunk
    · rintro snap (⟨-, hle⟩ | hkept)
      · refine .inl ⟨by simp [hheld], ?_⟩
        omega
      · exact .inr (by simpa only [hpending] using hkept)
    · refine ⟨fun _ => hlast.le, ?_⟩
      simpa only [hpending] using hfirst.pending
    · intro e he
      exact .inr (Option.some.inj (he.symm.trans hheld))
    · intro p hp
      exact .inl (hpending ▸ hp)
  | @kept snap group hfresh hgroup hsize =>
    obtain ⟨hgepoch, hgseq, -⟩ := groupFor_spec hgroup
    have hgroupSeq : (withChunk group snap).seq = snap.seq := hgseq
    refine ⟨?_, ?_, ?_, ?_, ?_, fun _ he => .inl he, ?_⟩
    · intro m hm
      refine ⟨(hrest m hm).applied, ?_, ?_⟩
      · intro p hp
        cases hp
        rw [hgroupSeq]
        exact (hbefore m hm).le
      · intro p hp later hlater hseq
        cases hp
        subst hlater
        rw [hgroupSeq] at hseq
        rcases hbefore _ hm with hlt | ⟨-, hidx⟩
        · exact absurd hseq hlt.ne'
        · exact notMem_withChunk (hrest _ hm) hgroup hseq hidx
    · intro p hp
      cases hp
      exact hsize
    · intro old htaken
      rcases htaken.superseded hfirst hgroup hepochs with happlied | hlt | hin
      · exact .inl happlied
      · exact .inr ⟨_, rfl, .inl (by rwa [hgroupSeq])⟩
      · exact .inr ⟨_, rfl, .inr (by rwa [hgroupSeq])⟩
    · rintro snap' hsnap
      cases hsnap
      exact .inr ⟨_, rfl, .inr ⟨hgroupSeq.symm, mem_insert_self⟩⟩
    · refine ⟨fun he => (hfirst.applied he).le, ?_⟩
      intro p hp
      cases hp
      exact hgroupSeq.le
    · intro p hp
      cases hp
      exact .inr hgepoch
  | @replaced snap group hfresh hgroup hsize =>
    obtain ⟨hgepoch, hgseq, -⟩ := groupFor_spec hgroup
    have hepoch : snap.epoch = s.core.epoch := ho.channelEpoch _ hmem
    obtain ⟨t, ht, hof⟩ := h.withChunk hepoch ((h.channel _ hmem).2 hepoch) hgroup
    refine ⟨?_, by simp [replaceFromGroup], ?_, ?_, ?_, ?_, by simp [replaceFromGroup]⟩
    · intro m hm
      refine ⟨fun _ => ?_, by simp [replaceFromGroup], by simp [replaceFromGroup]⟩
      show group.seq < msgSeq m
      rw [hgseq]
      by_contra hnot
      -- A message with the same number would be a chunk that the complete group lacks.
      have heq : msgSeq m = snap.seq := le_antisymm (Nat.not_lt.1 hnot) (hbefore m hm).le
      cases m with
      | delta d => exact absurd heq (hbefore _ hm).ne'
      | snapshotChunk later =>
        have hidx : snap.chunkIndex < later.chunkIndex := by
          rcases hbefore _ hm with hlt | ⟨-, hidx⟩
          · exact absurd heq hlt.ne'
          · exact hidx
        have hlater : SyncMsg.snapshotChunk later ∈ s.channel := by simp [hchannel, hm]
        obtain ⟨u, hu, -, hchunk⟩ := (h.channel _ hlater).2 (ho.channelEpoch _ hlater)
        have heq : later.seq = snap.seq := heq
        rw [heq, ht] at hu
        cases hu
        exact notMem_withChunk (hrest _ hm) hgroup heq hidx
          (hof.mem_of_full hsize (List.getElem?_eq_some_iff.1 hchunk).1)
    · intro old htaken
      refine .inl ⟨by simp [replaceFromGroup], ?_⟩
      show old.seq ≤ group.seq
      rw [hgseq]
      rcases htaken.superseded hfirst hgroup hepochs with ⟨he, hle⟩ | hlt | ⟨heq, -⟩
      · exact hle.trans (hfirst.applied he).le
      · exact hlt.le
      · exact heq.le
    · rintro snap' hsnap
      cases hsnap
      exact .inl ⟨by simp [replaceFromGroup], hgseq.ge⟩
    · exact ⟨fun _ => hgseq.le, by simp [replaceFromGroup]⟩
    · intro e he
      cases he
      exact .inr hgepoch

/-- The next message reaches the process. -/
theorem Ordered.receive : ({ s with channel := rest }.receive me msg now jitter).Ordered := by
  have hp := ho.progress h hchannel now jitter
  have hepoch : msg.epoch = s.core.epoch := ho.channelEpoch msg (by simp [hchannel])
  refine ⟨?_, ?_, ?_, ?_, hp.ahead, hp.incomplete, ?_, ?_, ho.newest⟩
  · exact fun m hm => ho.channelEpoch m (by simp [hchannel, show m ∈ rest from hm])
  · intro e he
    rcases hp.heldEpoch e he with hold | hnew
    · exact ho.heldEpoch e hold
    · exact hnew.trans hepoch
  · intro p hpend
    rcases hp.pendingEpoch p hpend with hold | hnew
    · exact ho.pendingEpoch p hold
    · exact hnew.trans hepoch
  · have := ho.sorted
    rw [hchannel, pairwise_cons] at this
    exact this.2
  · intro snap hsnap
    rcases mem_append.1 hsnap with hsnap | hsnap
    · exact hp.keeps snap (ho.taken snap hsnap)
    · exact hp.takes snap (mem_singleton.1 hsnap).symm
  · intro m hm
    have hm : (s.received ++ [msg]).getLast? = some m := hm
    obtain rfl : msg = m := by simpa using hm
    exact hp.upTo

end

/-- The core process goes on. -/
def Op.sameCore : Op Spec → Bool
  | .coreRestart => false
  | _ => true

variable {ring : Ring}

theorem Ordered.step (h : s.InSync me) (ho : s.Ordered)
    (hfp : DistinctPrints Spec) (op : Op Spec)
    (hop : op.settled s = true) (hcore : op.sameCore = true) : (s.step me ring op).Ordered := by
  cases op with
  | beat | loseBeat i | loseRequest i => exact ho.quiet rfl
  | restart graceful pool caps adoptRatePerSec => exact ho.restart rfl rfl
  | hearBeat now =>
    simp only [SyncSystem.step]
    split
    next => exact ho
    next hb rest hbs =>
      have hrest : { s with beats := rest }.Ordered := ho.quiet rfl
      simp only [observeBeat]
      split
      next hleaves =>
        have hleaving : hb.leaving = true := by
          rw [Bool.and_eq_true] at hleaves
          exact hleaves.1
        have hout : s.unreached = true := by
          simpa [Op.settled, hbs, hleaving] using hop
        exact hrest.leave hout
      next => exact hrest.quiet (observeHeartbeat_epoch s.core hb now)
  | hearRequest now | otherRequest req now | plan pool desired now =>
    simp only [SyncSystem.step]
    split
    next => exact ho
    next => exact ho.quiet rfl
  | otherBeat hb now =>
    simp only [SyncSystem.step]
    split
    next => exact ho
    next hne =>
      simp only [observeBeat, hne, decide_false, Bool.and_false, Bool.false_eq_true, if_false]
      exact ho.quiet (observeHeartbeat_epoch s.core hb now)
  | setPool pollerId pool | adoptPool pollerId pool =>
    exact ho.quiet (setPool_epoch s.core pollerId pool)
  | commit =>
    simp only [SyncSystem.step]
    split
    next => exact ho
    next plan hplan => exact ho.commitPlan h hfp hplan
  | deliver now jitter =>
    simp only [SyncSystem.step]
    split
    next => exact ho
    next msg rest hchannel => exact ho.receive h hchannel now jitter
  | lose i =>
    exact ⟨fun m hm => ho.channelEpoch m (mem_of_mem_eraseIdx hm), ho.heldEpoch,
      ho.pendingEpoch, ho.sorted.sublist (eraseIdx_sublist s.channel i),
      fun m hm => ho.ahead m (mem_of_mem_eraseIdx hm), ho.incomplete, ho.taken, ho.last,
      ho.newest⟩
  | coreRestart => simp [Op.sameCore] at hcore

/-! ### Every run -/

/-- When the last of the chunks of the newest snapshot has just reached the running process, its
working set is the snapshot's. -/
def Landed (me : PollerId) (s : SyncSystem Spec) : Prop :=
  ∀ n m, s.newest = some n → s.received.getLast? = some m →
    m ∈ snapshotOf s.core.epoch n.pool me n.seq n.target →
    (∀ chunk ∈ snapshotOf s.core.epoch n.pool me n.seq n.target, chunk ∈ s.received) →
    s.process.ws.epoch = some s.core.epoch ∧ s.process.ws.lastSeq = n.seq ∧
      ∀ node, s.process.ws.specsOf node = n.target[node]?

variable {t : ExtTreeMap NodeId (List Spec)}

omit [JobSpec Spec] [DecidableEq Spec] in
/-- The chunk of each index is sent. -/
theorem exists_mem_snapshotOf (epoch : Uuid) (pool : PoolName) (me : PollerId) (seq : Nat) {i : Nat}
    (hi : i < (chunksOf t).length) :
    ∃ snap, SyncMsg.snapshotChunk snap ∈ snapshotOf epoch pool me seq t ∧ snap.seq = seq ∧
      snap.chunkIndex = i := by
  refine ⟨_, mem_map.2 ⟨((chunksOf t)[i], i), ?_, rfl⟩, rfl, rfl⟩
  exact mem_zipIdx_iff_getElem?.2 (getElem?_eq_getElem hi)

omit [JobSpec Spec] [DecidableEq Spec] in
/-- A group that has the chunk of every index is complete. -/
theorem full_of_forall_mem {group : PendingSnapshot Spec} (h : GroupOf t group)
    (hall : ∀ i < (chunksOf t).length, i ∈ group.chunks) :
    ¬ group.chunks.size < group.chunkTotal := by
  have hsub : Finset.range (chunksOf t).length ⊆ group.chunks.keys.toFinset := by
    intro i hi
    rw [mem_toFinset, ExtTreeMap.mem_keys]
    exact hall i (Finset.mem_range.1 hi)
  have hcard := (Finset.card_le_card hsub).trans (toFinset_card_le _)
  rw [Finset.card_range, length_keys, ← h.total] at hcard
  omega

omit [DecidableEq Spec] in
theorem Ordered.landed (h : s.InSync me) (ho : s.Ordered) : s.Landed me := by
  intro n m hnewest hlast hm hall
  obtain ⟨-, -, hseq, -⟩ := snapshotOf_faithful (ho.newest n hnewest) hm
  have hupTo := ho.last m hlast
  rw [hseq] at hupTo
  -- Either the snapshot was applied, or all its chunks are in the group being put together.
  by_cases happlied : s.process.ws.epoch ≠ none ∧ n.seq ≤ s.process.ws.lastSeq
  · obtain ⟨hne, hle⟩ := happlied
    obtain ⟨e, he⟩ := Option.ne_none_iff_exists'.1 hne
    have heq : s.process.ws.lastSeq = n.seq := le_antisymm (hupTo.applied hne) hle
    obtain ⟨t, ht, hspecs⟩ := (h.holds e he).2 (ho.heldEpoch e he)
    rw [heq, ho.newest n hnewest] at ht
    cases ht
    exact ⟨by rw [he, ho.heldEpoch e he], heq, hspecs⟩
  · have hkept : ∀ i < (chunksOf n.target).length,
        ∃ p, s.process.ws.pending = some p ∧ p.seq = n.seq ∧ i ∈ p.chunks := by
      intro i hi
      obtain ⟨snap, hsnap, hsnapSeq, rfl⟩ :=
        exists_mem_snapshotOf s.core.epoch n.pool me n.seq hi
      rcases ho.taken snap (hall _ hsnap) with htaken | ⟨p, hp, hlt | ⟨heq, hidx⟩⟩
      · exact absurd (hsnapSeq ▸ htaken) happlied
      · have := hupTo.pending p hp
        omega
      · exact ⟨p, hp, heq.symm.trans hsnapSeq, hidx⟩
    obtain ⟨p, hp, hpseq, -⟩ := hkept 0 (chunksOf_length_pos n.target)
    obtain ⟨t, ht, hof⟩ := (h.pending p hp).2 (ho.pendingEpoch p hp)
    rw [hpseq, ho.newest n hnewest] at ht
    cases ht
    have hfull := full_of_forall_mem hof fun i hi => by
      obtain ⟨q, hq, -, hidx⟩ := hkept i hi
      cases hp.symm.trans hq
      exact hidx
    exact absurd (ho.incomplete p hp) hfull

/-- In one core process, if every `leaving` beat is heard while nothing core sent can reach the
running process, no complete snapshot is thrown away, and core and poller agree. -/
theorem snapshots_land (hfp : DistinctPrints Spec)
    (me : PollerId) (ring : Ring) (pool : PoolName) (caps : List Cap) (adoptRatePerSec : Nat)
    (ops : List (Op Spec))
    (hmeets : Meets (fun s op => (Op.settled s op && op.sameCore) = true) (step me ring)
      (start me pool caps adoptRatePerSec) ops) :
    let s := ops.foldl (step me ring) (start me pool caps adoptRatePerSec)
    s.Landed me ∧ s.Agreement me := by
  have hfinal := hmeets.invariant
    (I := fun s : SyncSystem Spec =>
      s.InSync me ∧ s.Ordered ∧ ∀ hb ∈ s.beats, hb.pollerId = me) ?_
    ⟨start_inSync pool caps adoptRatePerSec, start_ordered pool caps adoptRatePerSec,
      by simp [start]⟩
  · exact ⟨hfinal.2.1.landed hfinal.1, hfinal.1.agreement⟩
  · intro s op hop hstate
    obtain ⟨hs, ho, hbeats⟩ := hstate
    rw [Bool.and_eq_true] at hop
    refine ⟨hs.step hfp hbeats op hop.1, ho.step hs hfp op hop.1 hop.2, ?_⟩
    intro hb hhb
    rcases mem_beats_step hhb with hold | ⟨hid, -⟩
    · exact hbeats hb hold
    · exact hid

end

/-! ### A late goodbye -/

/-- The poller is handed node 1, stops in good order and starts again. -/
def handedOverThenRestarted : List (Op Unit) :=
  [.hearRequest 0] ++ reconcile [1] ++ [deliverNext, .restart true "hq" [] 0]

/-- The goodbye is heard before the next process is sent anything. -/
def promptGoodbye : List (Op Unit) :=
  handedOverThenRestarted ++ [.hearBeat 0, .hearRequest 0] ++ reconcile [2] ++ [deliverNext]

theorem snapshots_land_prompt_goodbye :
    let s := promptGoodbye.foldl (step 7 firstOwns) (start 7 "hq" [] 0)
    (s.Landed 7 ∧ s.Agreement 7) ∧ s.process.ws.lastSeq = 1 ∧ s.process.ws.specsOf 2 = some [()] :=
  ⟨snapshots_land distinctPrints_unit 7 firstOwns "hq" [] 0 promptGoodbye (by decide +kernel),
    by decide +kernel⟩

/-- The goodbye is heard after the next process asked for its first snapshot and got it. The next
beat makes a new entry, and core sends a snapshot of node 2 with the number one. -/
def lateGoodbye : List (Op Unit) :=
  handedOverThenRestarted ++ [.hearRequest 0] ++ reconcile [1] ++ [deliverNext, .hearBeat 0]
    ++ [.beat, .hearBeat 0] ++ reconcile [2] ++ [deliverNext]

/-- One more beat and reconcile: core's number is that of the process again. -/
def numbersMeet : List (Op Unit) :=
  lateGoodbye ++ [.beat, .hearBeat 0] ++ reconcile [2] ++ [deliverNext, .beat, .hearBeat 0]

/-- After a late goodbye the process ignores the newest snapshot though all of it arrives. Two
snapshots later the numbers are equal and the sets are not, and no further snapshot is due. -/
theorem late_goodbye_diverges :
    ¬ (lateGoodbye.foldl (step 7 firstOwns) (start 7 "hq" [] 0)).Landed 7 ∧
    ¬ (numbersMeet.foldl (step 7 firstOwns) (start 7 "hq" [] 0)).Agreement 7 ∧
    ((numbersMeet.foldl (step 7 firstOwns) (start 7 "hq" [] 0)).core.pollers[7]?).map
      (·.needsSnapshot) = some false := by
  refine ⟨?_, ?_, by decide +kernel⟩
  · generalize hs : lateGoodbye.foldl (step 7 firstOwns) (start 7 "hq" [] 0) = s
    have hfacts : (s.newest.any fun n => s.received.getLast?.any fun m =>
        decide (m ∈ snapshotOf s.core.epoch n.pool 7 n.seq n.target) &&
        (snapshotOf s.core.epoch n.pool 7 n.seq n.target).all (fun chunk =>
          decide (chunk ∈ s.received)) &&
        decide (s.process.ws.lastSeq ≠ n.seq)) = true := by
      rw [← hs]
      decide +kernel
    simp only [Option.any_eq_true, Bool.and_eq_true, decide_eq_true_eq, List.all_eq_true] at hfacts
    obtain ⟨n, hnewest, m, hlast, ⟨hm, hall⟩, hne⟩ := hfacts
    exact fun hland => hne (hland n m hnewest hlast hm hall).2.1
  · generalize hs : numbersMeet.foldl (step 7 firstOwns) (start 7 "hq" [] 0) = s
    have hentry : ((s.core.pollers[7]?).any fun e => decide (s.process.ws.lastSeq = e.seq)) = true
        ∧ s.process.ws.epoch = some s.core.epoch := by
      rw [← hs]
      decide +kernel
    have hsets : (s.core.published[7]?).bind (·[2]?) = some 1 ∧ s.process.ws.specsOf 2 = none := by
      rw [← hs]
      decide +kernel
    simp only [Option.any_eq_true, decide_eq_true_eq] at hentry
    obtain ⟨⟨e, he, hseq⟩, hepoch⟩ := hentry
    intro hagree
    obtain ⟨t, -, hpublished, hspecs⟩ := hagree e he hepoch hseq
    rw [hpublished, Option.bind_some, getElem?_fingerprints, ← hspecs, hsets.2] at hsets
    simp at hsets

end SyncSystem

end Yagra.Fleet
