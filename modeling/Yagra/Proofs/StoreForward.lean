import Yagra.Lib.Emit
import Yagra.Poller.StoreForward

/-!
# `Yagra.Proofs.StoreForward`: what the result buffer loses

`Accounted` lists the places a result can be: taken by the bus, in the ring, a line of the file
of a listed segment, in the batch the drain task holds, or counted as dropped. `WellFormed` is
the invariant of the buffer: what the segment list says is what the files hold. `ReplayOk` is
the invariant of the drain task: the lines it has passed are accounted for elsewhere.

Two steps of the source break them. A spill can go through a file that is no longer listed, since
the writer stays open when its segment is replayed and removed. And a replayed segment can be
removed after its file has grown, with the lines the replay did not see. `Op.careful` rules out
the two, and `step_sound` shows that nothing else loses a result.
-/

set_option autoImplicit false

namespace Yagra.Poller

open Yagra.Lib Function List

/-- The results the drain task has taken from the ring and not published yet. -/
def Drain.inHand {ρ : Type} : Drain ρ → List ρ
  | .batch _ rest => rest
  | _ => []

namespace StoreForwardSink

variable {ρ : Type} {s t : StoreForwardSink ρ}

/-! ### Where a result can be -/

variable (s)

/-- The lines on disk of a segment. -/
def linesOf (seg : Segment) : List ρ := (s.files seg.seq).getD []

/-- What a complete drain would publish, in its order. -/
def replayable : List ρ := s.segments.flatMap s.linesOf ++ s.mem

/-- A result is a line of the file of a listed segment. -/
def Filed (x : ρ) : Prop := ∃ seg ∈ s.segments, x ∈ s.linesOf seg

/-- A result is in the ring, on disk, or counted as dropped. -/
def Buffered (x : ρ) : Prop := x ∈ s.mem ∨ s.Filed x ∨ x ∈ s.dropped

/-- A result is in one of the places where it is not lost. -/
def Accounted (x : ρ) : Prop :=
  x ∈ s.live ∨ x ∈ s.backfill ∨ x ∈ s.drain.inHand ∨ s.Buffered x

/-! ### What buffering keeps -/

variable {s}

/-- What buffering a result leaves as it was: what the bus took and where the drain task stands.
Files that were there can only grow or go, and nothing leaves the buffer uncounted. -/
structure Keeps (s t : StoreForwardSink ρ) : Prop where
  live : t.live = s.live
  backfill : t.backfill = s.backfill
  drain : t.drain = s.drain
  nextSeq : s.nextSeq ≤ t.nextSeq
  files : ∀ k < s.nextSeq, ∀ lines, t.files k = some lines →
    ∃ before, s.files k = some before ∧ before <+: lines
  dropped : s.dropped ⊆ t.dropped
  buffered : ∀ x, s.Buffered x → t.Buffered x

theorem Keeps.refl (s : StoreForwardSink ρ) : Keeps s s :=
  ⟨rfl, rfl, rfl, le_rfl, fun _ _ lines h => ⟨lines, h, prefix_rfl⟩, List.Subset.refl _,
    fun _ h => h⟩

variable {d : Drain ρ} {dir : List (Nat × List ρ)} {entry : Nat × List ρ} {u : StoreForwardSink ρ}

theorem Keeps.trans (h₁ : Keeps s t) (h₂ : Keeps t u) : Keeps s u where
  live := h₂.live.trans h₁.live
  backfill := h₂.backfill.trans h₁.backfill
  drain := h₂.drain.trans h₁.drain
  nextSeq := h₁.nextSeq.trans h₂.nextSeq
  files := by
    intro k hk lines hlines
    obtain ⟨mid, hmid, hpre⟩ := h₂.files k (hk.trans_le h₁.nextSeq) lines hlines
    obtain ⟨first, hfirst, hpre'⟩ := h₁.files k hk mid hmid
    exact ⟨first, hfirst, hpre'.trans hpre⟩
  dropped := List.Subset.trans h₁.dropped h₂.dropped
  buffered := fun x hx => h₂.buffered x (h₁.buffered x hx)

/-! ### The invariant of the buffer -/

variable [Spillable ρ]

/-- The segment list says what the files hold, and the drop counter what was dropped. -/
structure WellFormed (s : StoreForwardSink ρ) : Prop where
  sorted : (s.segments.map (·.seq)).Pairwise (· < ·)
  below : ∀ seg ∈ s.segments, seg.seq < s.nextSeq
  filed : ∀ seg ∈ s.segments, ∃ lines, s.files seg.seq = some lines ∧
    seg.count = lines.length ∧ seg.bytes = fileBytes lines
  fresh : ∀ k, s.nextSeq ≤ k → s.files k = none
  writer : ∀ k, s.writer = some k → k + 1 = s.nextSeq
  bytes : s.diskBytes = (s.segments.map (·.bytes)).sum
  counted : s.droppedTotal = s.dropped.length

/-- The ring, the link, the drain task and what the bus took are no part of the invariant. -/
theorem WellFormed.beside (h : s.WellFormed) {mem live backfill : List ρ} {cached : Option Nat}
    {connected probed : Bool} {since : Nat} : { s with
      mem := mem, live := live, backfill := backfill, connected := connected, drain := d,
      freeCached := cached, freeProbed := probed, sinceFreeProbe := since }.WellFormed :=
  ⟨h.sorted, h.below, h.filed, h.fresh, h.writer, h.bytes, h.counted⟩

/-- Whether the segment of the open file is listed. -/
def writerListed (s : StoreForwardSink ρ) : Bool :=
  s.writer.any fun k => s.segments.any fun seg => decide (seg.seq = k)

/-- The next line goes to a file that is listed. -/
def SafeToSpill (s : StoreForwardSink ρ) : Prop :=
  s.rotationDue = true ∨ s.writerListed = true

theorem WellFormed.linesOf_eq (h : s.WellFormed) (seg : Segment) (hseg : seg ∈ s.segments) :
    s.files seg.seq = some (s.linesOf seg) ∧ seg.count = (s.linesOf seg).length ∧
      seg.bytes = fileBytes (s.linesOf seg) := by
  obtain ⟨lines, hlines, hcount, hbytes⟩ := h.filed seg hseg
  have : s.linesOf seg = lines := by simp [linesOf, hlines]
  rw [this]
  exact ⟨hlines, hcount, hbytes⟩

/-- The depth gauge counts what a complete drain would publish. -/
theorem WellFormed.totalDepth_eq (h : s.WellFormed) : s.totalDepth = s.replayable.length := by
  have hcounts : s.segments.map (·.count) = s.segments.map fun seg => (s.linesOf seg).length :=
    map_congr_left fun seg hseg => (h.linesOf_eq seg hseg).2.1
  simp only [BufState.totalDepth, replayable, length_append, length_flatMap, hcounts]
  omega

/-- A listed writer belongs to the newest segment. -/
theorem WellFormed.segments_eq (h : s.WellFormed) {k : Nat} (hw : s.writer = some k)
    (hl : s.writerListed = true) : ∃ older last, s.segments = older ++ [last] ∧ last.seq = k := by
  simp only [writerListed, hw, Option.any_some, any_eq_true, decide_eq_true_eq] at hl
  obtain ⟨seg, hseg, hk⟩ := hl
  obtain ⟨older, newer, heq⟩ := append_of_mem hseg
  -- Any newer segment would have a number that was never given out.
  have hnewer : newer = [] := by
    rw [eq_nil_iff_forall_not_mem]
    intro seg' hseg'
    have hlt : seg'.seq < s.nextSeq := h.below seg' (by simp [heq, hseg'])
    have hgt : seg.seq < seg'.seq := by
      have hsorted := h.sorted
      rw [heq, map_append, map_cons, pairwise_append, pairwise_cons] at hsorted
      exact hsorted.2.1.1 _ (mem_map_of_mem hseg')
    have := h.writer k hw
    omega
  exact ⟨older, seg, by rw [heq, hnewer], hk⟩

/-! ### The parts of a spill -/

/-- Results counted as dropped. -/
theorem countDrop_spec (h : s.WellFormed) (results : List ρ) :
    (s.countDrop results results.length).WellFormed ∧
      Keeps s (s.countDrop results results.length) ∧
      results ⊆ (s.countDrop results results.length).dropped := by
  refine ⟨⟨h.sorted, h.below, h.filed, h.fresh, h.writer, h.bytes, ?_⟩, ?_, ?_⟩
  · simp [countDrop, h.counted]
  · refine ⟨rfl, rfl, rfl, le_rfl, fun _ _ lines h => ⟨lines, h, prefix_rfl⟩, ?_, ?_⟩
    · exact subset_append_left _ _
    · rintro x (hx | hx | hx)
      · exact .inl hx
      · exact .inr (.inl hx)
      · exact .inr (.inr (mem_append_left _ hx))
  · exact subset_append_right _ _

/-- A new segment starts empty and is listed last. -/
theorem rotate_spec (h : s.WellFormed) :
    s.rotate.WellFormed ∧ s.rotate.writerListed = true ∧ Keeps s s.rotate := by
  have hnew : s.files s.nextSeq = none := h.fresh _ le_rfl
  have hold : ∀ k, k < s.nextSeq → s.rotate.files k = s.files k := by
    intro k hk
    exact update_of_ne hk.ne _ _
  refine ⟨⟨?_, ?_, ?_, ?_, ?_, ?_, h.counted⟩, ?_, ⟨rfl, rfl, rfl, Nat.le_succ _, ?_, ?_, ?_⟩⟩
  · show ((s.segments ++ [Segment.mk s.nextSeq 0 0]).map Segment.seq).Pairwise (· < ·)
    rw [map_append, pairwise_append]
    refine ⟨h.sorted, pairwise_singleton _ _, ?_⟩
    intro a ha b hb
    obtain ⟨seg, hseg, rfl⟩ := mem_map.1 ha
    obtain rfl : b = s.nextSeq := by simpa using hb
    exact h.below seg hseg
  · refine forall_mem_append.2 ⟨fun seg hseg => ?_, forall_mem_singleton.2 ?_⟩
    · exact (h.below seg hseg).trans (Nat.lt_succ_self _)
    · exact Nat.lt_succ_self _
  · refine forall_mem_append.2 ⟨fun seg hseg => ?_, forall_mem_singleton.2 ?_⟩
    · rw [hold seg.seq (h.below seg hseg)]
      exact h.filed seg hseg
    · exact ⟨[], by simp [rotate, hnew], rfl, rfl⟩
  · intro k hk
    have hk' : s.nextSeq < k := hk
    show update s.files s.nextSeq _ k = none
    rw [update_of_ne hk'.ne']
    exact h.fresh k hk'.le
  · intro k hk
    have : s.nextSeq = k := by simpa [rotate] using hk
    show k + 1 = s.nextSeq + 1
    omega
  · show s.diskBytes = ((s.segments ++ [Segment.mk s.nextSeq 0 0]).map Segment.bytes).sum
    rw [h.bytes]
    simp
  · simp [writerListed, rotate]
  · intro k hk lines hlines
    rw [hold k hk] at hlines
    exact ⟨lines, hlines, prefix_rfl⟩
  · exact List.Subset.refl _
  · rintro x (hx | ⟨seg, hseg, hx⟩ | hx)
    · exact .inl hx
    · refine .inr (.inl ⟨seg, mem_append_left _ hseg, ?_⟩)
      rwa [linesOf, hold seg.seq (h.below seg hseg)]
    · exact .inr (.inr hx)

theorem noteLine_append (bytes : Nat) (older : List Segment) (last : Segment) :
    noteLine bytes (older ++ [last])
      = older ++ [⟨last.seq, last.bytes + bytes, last.count + 1⟩] := by
  induction older with
  | nil => rfl
  | cons seg rest ih =>
    -- The third equation of `noteLine` needs to see that the tail is not empty.
    cases rest with
    | nil => rfl
    | cons seg' rest => simpa [noteLine] using ih

/-- A line written to the open file, with the counters that go with it. -/
def fileLine (s : StoreForwardSink ρ) (r : ρ) : StoreForwardSink ρ :=
  { s.appendLine r with
    diskBytes := s.diskBytes + Spillable.lineBytes r
    sinceFreeProbe := s.sinceFreeProbe + Spillable.lineBytes r
    segments := noteLine (Spillable.lineBytes r) s.segments }

/-- A line written to a listed file is on disk, and the counters follow it. -/
theorem fileLine_spec (h : s.WellFormed) (hl : s.writerListed = true) (r : ρ) :
    (s.fileLine r).WellFormed ∧ (s.fileLine r).writerListed = true ∧ Keeps s (s.fileLine r) ∧
      (s.fileLine r).Filed r := by
  obtain ⟨k, hw⟩ : ∃ k, s.writer = some k := by
    cases hw : s.writer with
    | none => simp [writerListed, hw] at hl
    | some k => exact ⟨k, rfl⟩
  obtain ⟨older, last, heq, rfl⟩ := h.segments_eq hw hl
  obtain ⟨hlast, hcount, hbytes⟩ := h.linesOf_eq last (by simp [heq])
  set lines := s.linesOf last
  -- The list afterwards, the file of the last segment, and the files of the others.
  have hsegs : (s.fileLine r).segments = older ++
      [⟨last.seq, last.bytes + Spillable.lineBytes r, last.count + 1⟩] := by
    show noteLine _ s.segments = _
    rw [heq, noteLine_append]
  have hfile : (s.fileLine r).files last.seq = some (lines ++ [r]) := by
    simp [fileLine, appendLine, hw, hlast]
  have hother : ∀ k, k ≠ last.seq → (s.fileLine r).files k = s.files k := by
    intro k hk
    simp [fileLine, appendLine, hw, update_of_ne hk]
  have holder : ∀ seg ∈ older, seg.seq ≠ last.seq := by
    intro seg hseg
    have hsorted := h.sorted
    rw [heq, map_append, pairwise_append] at hsorted
    exact (hsorted.2.2 seg.seq (mem_map_of_mem hseg) last.seq (by simp)).ne
  have hfiled : ∀ x ∈ lines ++ [r], (s.fileLine r).Filed x := by
    intro x hx
    refine ⟨_, by rw [hsegs]; exact mem_append_right _ (mem_singleton.2 rfl), ?_⟩
    simpa [linesOf, hfile] using hx
  refine ⟨⟨?_, ?_, ?_, ?_, h.writer, ?_, h.counted⟩, ?_, ⟨rfl, rfl, rfl, le_rfl, ?_, ?_, ?_⟩, ?_⟩
  · have hsorted := h.sorted
    rw [heq] at hsorted
    rw [hsegs]
    simpa using hsorted
  · intro seg hseg
    rw [hsegs, mem_append, mem_singleton] at hseg
    rcases hseg with hseg | rfl
    · exact h.below seg (by simp [heq, hseg])
    · exact h.below last (by simp [heq])
  · intro seg hseg
    rw [hsegs, mem_append, mem_singleton] at hseg
    rcases hseg with hseg | rfl
    · rw [hother _ (holder seg hseg)]
      exact h.filed seg (by simp [heq, hseg])
    · exact ⟨lines ++ [r], hfile, by simp [hcount], by simp [fileBytes, hbytes]⟩
  · intro k hk
    have hk' : s.nextSeq ≤ k := hk
    have : last.seq < s.nextSeq := h.below last (by simp [heq])
    rw [hother k (by omega)]
    exact h.fresh k hk'
  · show s.diskBytes + Spillable.lineBytes r = _
    rw [h.bytes, hsegs, heq]
    simp [Nat.add_assoc]
  · have : (s.fileLine r).writer = some last.seq := hw
    simp [writerListed, this, hsegs]
  · intro k hk after hafter
    by_cases hk' : k = last.seq
    · subst hk'
      cases hfile.symm.trans hafter
      exact ⟨lines, hlast, prefix_append _ _⟩
    · rw [hother k hk'] at hafter
      exact ⟨after, hafter, prefix_rfl⟩
  · exact List.Subset.refl _
  · rintro x (hx | ⟨seg, hseg, hx⟩ | hx)
    · exact .inl hx
    · rw [heq, mem_append, mem_singleton] at hseg
      rcases hseg with hseg | rfl
      · refine .inr (.inl ⟨seg, by simp [hsegs, hseg], ?_⟩)
        rwa [linesOf, hother _ (holder seg hseg)]
      · exact .inr (.inl (hfiled x (mem_append_left _ hx)))
    · exact .inr (.inr hx)
  · exact hfiled r (by simp)

/-- The sink without its oldest segment. -/
def withoutFirst (s : StoreForwardSink ρ) (seg : Segment) (rest : List Segment) :
    StoreForwardSink ρ :=
  { s with
    segments := rest
    diskBytes := s.diskBytes - seg.bytes
    files := update s.files seg.seq none }

variable {rest : List Segment} {read seq : Nat} {seg : Segment}

section

variable (h : s.WellFormed) (hsegs : s.segments = seg :: rest)

include h hsegs

/-- The other segments have other files. -/
theorem withoutFirst_files {other : Segment} (hother : other ∈ rest) :
    (s.withoutFirst seg rest).files other.seq = s.files other.seq := by
  have hsorted := h.sorted
  rw [hsegs, map_cons, pairwise_cons] at hsorted
  exact update_of_ne (hsorted.1 _ (mem_map_of_mem hother)).ne' _ _

theorem withoutFirst_wellFormed :
    (s.withoutFirst seg rest).WellFormed where
  sorted := by
    have hsorted := h.sorted
    rw [hsegs, map_cons, pairwise_cons] at hsorted
    exact hsorted.2
  below := fun other hother => h.below other (by simp [hsegs, show other ∈ rest from hother])
  filed := by
    intro other hother
    rw [withoutFirst_files h hsegs hother]
    exact h.filed other (by simp [hsegs, show other ∈ rest from hother])
  fresh := by
    intro k hk
    show update s.files seg.seq none k = none
    rw [update_apply]
    split
    · rfl
    · exact h.fresh k hk
  writer := h.writer
  bytes := by
    show s.diskBytes - seg.bytes = (rest.map (·.bytes)).sum
    rw [h.bytes, hsegs, map_cons, sum_cons]
    omega
  counted := h.counted

/-- A removed file took its lines with it, and nothing else. -/
theorem withoutFirst_filed {x : ρ} (hx : s.Filed x) :
    x ∈ s.linesOf seg ∨ (s.withoutFirst seg rest).Filed x := by
  obtain ⟨other, hother, hx⟩ := hx
  rw [hsegs, mem_cons] at hother
  rcases hother with rfl | hother
  · exact .inl hx
  · refine .inr ⟨other, hother, ?_⟩
    rwa [linesOf, withoutFirst_files h hsegs hother]

end

/-- Without its oldest segment the disk is smaller by that segment, which is counted as
dropped. The newest segment stays. -/
theorem dropOldestSegment_spec (h : s.WellFormed) (hl : s.writerListed = true)
    (hlen : 1 < s.segments.length) :
    s.dropOldestSegment.WellFormed ∧ s.dropOldestSegment.writerListed = true ∧
      Keeps s s.dropOldestSegment := by
  obtain ⟨seg, rest, hsegs⟩ := exists_cons_of_length_pos (show 0 < s.segments.length by omega)
  obtain ⟨_, hcount, -⟩ := h.linesOf_eq seg (by simp [hsegs])
  have heq : s.dropOldestSegment =
      (s.withoutFirst seg rest).countDrop (s.linesOf seg) (s.linesOf seg).length := by
    rw [← hcount]
    simp [dropOldestSegment, withoutFirst, hsegs, linesOf]
  obtain ⟨hwf, hkeeps, hdropped⟩ :=
    countDrop_spec (withoutFirst_wellFormed h hsegs) (s.linesOf seg)
  rw [heq]
  refine ⟨hwf, ?_, ⟨rfl, rfl, rfl, le_rfl, ?_, subset_append_left _ _, ?_⟩⟩
  · -- The writer belongs to the last segment, which is not the first one.
    cases hw : s.writer with
    | none => simp [writerListed, hw] at hl
    | some k =>
      obtain ⟨older, last, hlast, rfl⟩ := h.segments_eq hw hl
      have hmem : last ∈ rest := by
        have hrest : rest = (older ++ [last]).tail := by rw [← hlast, hsegs]; rfl
        cases older with
        | nil => simp [hlast] at hlen
        | cons _ older => simp [hrest]
      have hw' : (s.withoutFirst seg rest).writer = some last.seq := hw
      simp only [writerListed, countDrop, hw', Option.any_some, any_eq_true]
      exact ⟨last, hmem, by simp⟩
  · intro k _ lines hlines
    have hlines : update s.files seg.seq none k = some lines := hlines
    rw [update_apply] at hlines
    split at hlines
    · simp at hlines
    · exact ⟨lines, hlines, prefix_rfl⟩
  · rintro x (hx | hx | hx)
    · exact .inl hx
    · rcases withoutFirst_filed h hsegs hx with hx | hx
      · exact .inr (.inr (hdropped hx))
      · exact hkeeps.buffered x (.inr (.inl hx))
    · exact .inr (.inr (mem_append_left _ hx))

theorem enforceCap_spec (fuel : Nat) (h : s.WellFormed) (hl : s.writerListed = true) :
    (enforceCap fuel s).WellFormed ∧ (enforceCap fuel s).writerListed = true ∧
      Keeps s (enforceCap fuel s) := by
  induction fuel generalizing s with
  | zero => exact ⟨h, hl, Keeps.refl s⟩
  | succ fuel ih =>
    rw [enforceCap]
    split
    next hcap =>
      obtain ⟨hwf, hlisted, hkeeps⟩ := dropOldestSegment_spec h hl hcap.2
      obtain ⟨hwf', hlisted', hkeeps'⟩ := ih hwf hlisted
      exact ⟨hwf', hlisted', hkeeps.trans hkeeps'⟩
    next => exact ⟨h, hl, Keeps.refl s⟩

/-- A look at the free space only touches what is remembered of it. -/
theorem freeBytesEstimate_spec (h : s.WellFormed) (avail : Option Nat) :
    (s.freeBytesEstimate avail).1.WellFormed ∧ Keeps s (s.freeBytesEstimate avail).1 ∧
      (s.SafeToSpill → (s.freeBytesEstimate avail).1.SafeToSpill) := by
  simp only [freeBytesEstimate]
  split
  · exact ⟨h.beside,
      ⟨rfl, rfl, rfl, le_rfl, fun _ _ lines h => ⟨lines, h, prefix_rfl⟩,
        List.Subset.refl _, fun _ hx => hx⟩, fun hsafe => hsafe⟩
  · exact ⟨h, Keeps.refl s, fun hsafe => hsafe⟩

/-- A line that is written goes to a listed file. -/
theorem writeLine_spec (h : s.WellFormed) (hsafe : s.SafeToSpill) (r : ρ) :
    let t := (if s.rotationDue then s.rotate else s).fileLine r
    t.WellFormed ∧ t.writerListed = true ∧ Keeps s t ∧ t.Filed r := by
  by_cases hdue : s.rotationDue = true
  · obtain ⟨hwf, hlisted, hkeeps⟩ := rotate_spec h
    obtain ⟨hwf', hlisted', hkeeps', hfiled⟩ := fileLine_spec hwf hlisted r
    simpa only [hdue, if_true] using ⟨hwf', hlisted', hkeeps.trans hkeeps', hfiled⟩
  · have hlisted : s.writerListed = true := hsafe.resolve_left hdue
    simpa only [if_neg hdue] using fileLine_spec h hlisted r

/-- A spilled result is on disk or counted as dropped. -/
theorem spillToDisk_spec (h : s.WellFormed) (hsafe : s.SafeToSpill) (avail : Option Nat) (r : ρ) :
    (s.spillToDisk avail r).WellFormed ∧ (s.spillToDisk avail r).SafeToSpill ∧
      Keeps s (s.spillToDisk avail r) ∧ (s.spillToDisk avail r).Buffered r := by
  rw [spillToDisk]
  split
  · obtain ⟨hwf, hkeeps, hdropped⟩ := countDrop_spec h [r]
    exact ⟨hwf, hsafe, hkeeps, .inr (.inr (hdropped (mem_singleton.2 rfl)))⟩
  · obtain ⟨hwf, hkeeps, hsafe'⟩ := freeBytesEstimate_spec h avail
    have hsafe := hsafe' hsafe
    generalize s.freeBytesEstimate avail = probed at hwf hkeeps hsafe
    dsimp only at hwf hkeeps hsafe ⊢
    split
    · obtain ⟨hwf', hkeeps', hdropped⟩ := countDrop_spec hwf [r]
      exact ⟨hwf', hsafe, hkeeps.trans hkeeps', .inr (.inr (hdropped (mem_singleton.2 rfl)))⟩
    · obtain ⟨hwf', hlisted, hkeeps', hfiled⟩ := writeLine_spec hwf hsafe r
      obtain ⟨hwf'', hlisted', hkeeps''⟩ := enforceCap_spec _ hwf' hlisted
      exact ⟨hwf'', .inr hlisted', hkeeps.trans (hkeeps'.trans hkeeps''),
        hkeeps''.buffered r (.inr (.inl hfiled))⟩

/-! ### Submitting -/

/-- The loop that spills the overflow of the ring. -/
theorem spillOverflow_spec (avail : Option Nat) (fuel : Nat) (h : s.WellFormed)
    (hsafe : s.SafeToSpill) :
    (spillOverflow avail fuel s).WellFormed ∧ Keeps s (spillOverflow avail fuel s) := by
  induction fuel generalizing s with
  | zero => exact ⟨h, Keeps.refl s⟩
  | succ fuel ih =>
    rw [spillOverflow]
    split
    next => exact ⟨h, Keeps.refl s⟩
    next old rest hmem =>
      split
      · have hpopped : { s with mem := rest }.WellFormed := h.beside
        obtain ⟨hwf, hsafe', hkeeps, hold⟩ := spillToDisk_spec hpopped hsafe avail old
        obtain ⟨hwf', hkeeps'⟩ := ih hwf hsafe'
        refine ⟨hwf', Keeps.trans ⟨hkeeps.live, hkeeps.backfill, hkeeps.drain, hkeeps.nextSeq,
          hkeeps.files, hkeeps.dropped, ?_⟩ hkeeps'⟩
        -- The result taken from the ring is the one that was spilled.
        rintro x (hx | hx)
        · rw [hmem, mem_cons] at hx
          rcases hx with rfl | hx
          · exact hold
          · exact hkeeps.buffered x (.inl hx)
        · exact hkeeps.buffered x (.inr hx)
      · exact ⟨h, Keeps.refl s⟩

/-- Whether a submitted result makes the ring spill. -/
def overflows (s : StoreForwardSink ρ) : Bool :=
  s.cfg.enabled && !s.connected && decide (s.cfg.memMax ≤ s.mem.length)

theorem spillOverflow_eq_self (avail : Option Nat) (fuel : Nat)
    (h : ¬ s.cfg.memMax < s.mem.length) : spillOverflow avail fuel s = s := by
  cases fuel with
  | zero => rfl
  | succ fuel =>
    rw [spillOverflow]
    split
    · rfl
    · rw [if_neg h]

/-- A buffered result is in the buffer, and nothing leaves it. -/
theorem enqueue_spec (h : s.WellFormed) (hsafe : s.SafeToSpill ∨ ¬ s.cfg.memMax ≤ s.mem.length)
    (avail : Option Nat) (r : ρ) :
    (s.enqueue avail r).WellFormed ∧ Keeps s (s.enqueue avail r) ∧
      (s.enqueue avail r).Buffered r := by
  have hpushed : { s with mem := s.mem ++ [r] }.WellFormed := h.beside
  have hkeeps : Keeps s { s with mem := s.mem ++ [r] } := by
    refine ⟨rfl, rfl, rfl, le_rfl, fun _ _ lines h => ⟨lines, h, prefix_rfl⟩,
      List.Subset.refl _, ?_⟩
    rintro x (hx | hx)
    · exact .inl (mem_append_left _ hx)
    · exact .inr hx
  have hin : { s with mem := s.mem ++ [r] }.Buffered r := .inl (by simp)
  rw [enqueue]
  rcases hsafe with hsafe | hroom
  · obtain ⟨hwf, hkeeps'⟩ := spillOverflow_spec avail (s.mem ++ [r]).length hpushed hsafe
    exact ⟨hwf, hkeeps.trans hkeeps', hkeeps'.buffered r hin⟩
  · rw [spillOverflow_eq_self]
    · exact ⟨hpushed, hkeeps, hin⟩
    · show ¬ s.cfg.memMax < (s.mem ++ [r]).length
      rw [length_append, length_singleton]
      omega

/-! ### The invariant of the drain task -/

/-- What the drain task has passed of the segment it works on is accounted for elsewhere. The
lines it read are a prefix of the file, as long as the file is there. -/
def ReplayOk (s : StoreForwardSink ρ) : Prop :=
  match s.drain with
  | .chosen seq => seq < s.nextSeq
  | .replaying seq _ read rest => seq < s.nextSeq ∧ ∀ lines, s.files seq = some lines →
      read ≤ lines.length ∧ ∃ passed, lines.take read = passed ++ rest ∧
        ∀ x ∈ passed, x ∈ s.backfill ∨ x ∈ s.dropped
  | .finished seq read => seq < s.nextSeq ∧ ∀ lines, s.files seq = some lines →
      read ≤ lines.length ∧ ∀ x ∈ lines.take read, x ∈ s.backfill ∨ x ∈ s.dropped
  | _ => True

omit [Spillable ρ] in
/-- Buffering more results does not disturb the drain task. -/
theorem ReplayOk.of_keeps (h : s.ReplayOk) (hkeeps : Keeps s t) : t.ReplayOk := by
  have haccounted : ∀ x, x ∈ s.backfill ∨ x ∈ s.dropped → x ∈ t.backfill ∨ x ∈ t.dropped := by
    intro x hx
    rw [hkeeps.backfill]
    exact hx.imp_right fun hx => hkeeps.dropped hx
  unfold ReplayOk at h ⊢
  rw [hkeeps.drain]
  cases hd : s.drain with
  | idle => trivial
  | top => trivial
  | noSegments => trivial
  | batch => trivial
  | chosen seq =>
    rw [hd] at h
    exact lt_of_lt_of_le h hkeeps.nextSeq
  | replaying seq start read rest =>
    rw [hd] at h
    obtain ⟨hseq, hpassed⟩ := h
    refine ⟨hseq.trans_le hkeeps.nextSeq, ?_⟩
    intro lines hlines
    obtain ⟨before, hbefore, more, rfl⟩ := hkeeps.files seq hseq lines hlines
    obtain ⟨hread, passed, htake, hx⟩ := hpassed before hbefore
    refine ⟨by rw [length_append]; omega, passed, ?_, fun x h => haccounted x (hx x h)⟩
    rw [take_append_of_le_length hread, htake]
  | finished seq read =>
    rw [hd] at h
    obtain ⟨hseq, hpassed⟩ := h
    refine ⟨hseq.trans_le hkeeps.nextSeq, ?_⟩
    intro lines hlines
    obtain ⟨before, hbefore, more, rfl⟩ := hkeeps.files seq hseq lines hlines
    obtain ⟨hread, hx⟩ := hpassed before hbefore
    refine ⟨by rw [length_append]; omega, ?_⟩
    rw [take_append_of_le_length hread]
    exact fun x h => haccounted x (hx x h)

omit [Spillable ρ] in
theorem Accounted.of_keeps (hkeeps : Keeps s t) {x : ρ} (hx : s.Accounted x) : t.Accounted x := by
  rcases hx with hx | hx | hx | hx
  · exact .inl (hkeeps.live ▸ hx)
  · exact .inr (.inl (hkeeps.backfill ▸ hx))
  · exact .inr (.inr (.inl (hkeeps.drain ▸ hx)))
  · exact .inr (.inr (.inr (hkeeps.buffered x hx)))

/-- The two invariants together. -/
structure Inv (s : StoreForwardSink ρ) : Prop where
  wellFormed : s.WellFormed
  replay : s.ReplayOk

/-- From `s` to `t` the invariant is kept and no result gets lost. -/
structure Sound (s t : StoreForwardSink ρ) : Prop where
  inv : t.Inv
  accounted : ∀ x, s.Accounted x → t.Accounted x

theorem Keeps.sound (h : s.Inv) (hwf : t.WellFormed) (hkeeps : Keeps s t) : Sound s t :=
  ⟨⟨hwf, h.replay.of_keeps hkeeps⟩, fun _ hx => hx.of_keeps hkeeps⟩

/-! ### What one step does -/

/-- The steps that lose nothing: a submit that spills does so to a listed file, and a replayed
segment is only removed while its file is as long as when it was read. -/
def Op.careful (s : StoreForwardSink ρ) : Op ρ → Bool
  | .submit _ _ => s.rotationDue || s.writerListed || !s.overflows
  | .link _ => true
  | .drain _ _ =>
    match s.drain with
    | .finished seq read => (s.files seq).all fun lines => decide (lines.length = read)
    | _ => true

theorem submit_sound (h : s.Inv) (r : ρ) (avail : Option Nat)
    (hcare : Op.careful s (.submit r avail) = true) :
    Sound s (s.submit avail r) ∧ (s.submit avail r).Accounted r := by
  have hsafe : s.SafeToSpill ∨ s.overflows = false := by
    simpa [Op.careful, SafeToSpill] using hcare
  rw [submit]
  split
  next hdown =>
    have hsafe : s.SafeToSpill ∨ ¬ s.cfg.memMax ≤ s.mem.length := by
      simpa [overflows, hdown] using hsafe
    obtain ⟨hwf, hkeeps, hin⟩ := enqueue_spec h.wellFormed hsafe avail r
    exact ⟨hkeeps.sound h hwf, .inr (.inr (.inr hin))⟩
  next =>
    split
    · refine ⟨⟨⟨h.wellFormed.beside, h.replay⟩, ?_⟩,
        .inl (mem_append_right _ (mem_singleton.2 rfl))⟩
      rintro x (hx | hx)
      · exact .inl (mem_append_left _ hx)
      · exact .inr hx
    · obtain ⟨hwf, hkeeps, hdropped⟩ := countDrop_spec h.wellFormed [r]
      exact ⟨hkeeps.sound h hwf,
        .inr (.inr (.inr (.inr (.inr (hdropped (mem_singleton.2 rfl))))))⟩

/-- A step of the drain task that leaves the buffer as it is: the bus may have taken more, and
more may be counted as dropped. -/
theorem moved_sound (h : s.WellFormed) {backfill dropped : List ρ} {n : Nat}
    (hbackfill : s.backfill ⊆ backfill) (hdropped : s.dropped ⊆ dropped)
    (hcounted : n = dropped.length)
    (hhand : ∀ x ∈ s.drain.inHand, x ∈ d.inHand ∨ x ∈ backfill ∨ x ∈ dropped) (hreplay : { s with
      backfill := backfill, dropped := dropped, droppedTotal := n, drain := d }.ReplayOk) :
    Sound s { s with
      backfill := backfill, dropped := dropped, droppedTotal := n, drain := d } := by
  refine ⟨⟨⟨h.sorted, h.below, h.filed, h.fresh, h.writer, h.bytes, hcounted⟩, hreplay⟩, ?_⟩
  rintro x (hx | hx | hx | hx | hx | hx)
  · exact .inl hx
  · exact .inr (.inl (hbackfill hx))
  · rcases hhand x hx with hx | hx | hx
    · exact .inr (.inr (.inl hx))
    · exact .inr (.inl hx)
    · exact .inr (.inr (.inr (.inr (.inr hx))))
  · exact .inr (.inr (.inr (.inl hx)))
  · exact .inr (.inr (.inr (.inr (.inl hx))))
  · exact .inr (.inr (.inr (.inr (.inr (hdropped hx)))))

/-- The drain task, with nothing in hand, goes on to `d`. -/
theorem goesTo_sound (h : s.WellFormed) (hhand : s.drain.inHand = [])
    (hreplay : { s with drain := d }.ReplayOk) : Sound s { s with drain := d } := by
  refine moved_sound h (List.Subset.refl _) (List.Subset.refl _) h.counted ?_ hreplay
  simp [hhand]

section

variable (h : s.Inv) (ok : Bool) (now : UnixMs)

include h

/-- One line of a replayed segment. -/
theorem replaying_sound {start : UnixMs} {rest : List ρ}
    (hd : s.drain = .replaying seq start read rest) : Sound s (s.drainStep ok now) := by
  have hhand : s.drain.inHand = [] := by rw [hd]; rfl
  obtain ⟨hseq, hpassed⟩ : seq < s.nextSeq ∧ ∀ lines, s.files seq = some lines →
      read ≤ lines.length ∧ ∃ passed, lines.take read = passed ++ rest ∧
        ∀ x ∈ passed, x ∈ s.backfill ∨ x ∈ s.dropped := by
    simpa [ReplayOk, hd] using h.replay
  cases rest with
  | nil =>
    simp only [drainStep, hd]
    refine goesTo_sound h.wellFormed hhand ⟨hseq, fun lines hlines => ?_⟩
    obtain ⟨hread, passed, htake, hx⟩ := hpassed lines hlines
    rw [append_nil] at htake
    exact ⟨hread, htake ▸ hx⟩
  | cons r rest =>
    -- Passing `r` keeps the invariant once `r` is accounted for.
    have hnext : ∀ backfill dropped : List ρ, s.backfill ⊆ backfill → s.dropped ⊆ dropped →
        (r ∈ backfill ∨ r ∈ dropped) → ∀ lines, s.files seq = some lines →
        read ≤ lines.length ∧ ∃ passed, lines.take read = passed ++ rest ∧
          ∀ x ∈ passed, x ∈ backfill ∨ x ∈ dropped := by
      intro backfill dropped hbackfill hdropped hr lines hlines
      obtain ⟨hread, passed, htake, hx⟩ := hpassed lines hlines
      refine ⟨hread, passed ++ [r], by rw [htake]; simp, ?_⟩
      intro x hmem
      rcases mem_append.1 hmem with hmem | hmem
      · exact (hx x hmem).imp (fun h => hbackfill h) (fun h => hdropped h)
      · rwa [mem_singleton.1 hmem]
    simp only [drainStep, hd]
    split
    · exact goesTo_sound h.wellFormed hhand trivial
    split
    · have hsub : s.dropped ⊆ s.dropped ++ [r] := subset_append_left _ _
      refine moved_sound h.wellFormed (List.Subset.refl _) hsub ?_ ?_ ⟨hseq, ?_⟩
      · simp [countDrop, h.wellFormed.counted]
      · simp [hhand]
      · exact hnext _ _ (List.Subset.refl _) hsub (by simp [countDrop])
    split
    · have hsub : s.backfill ⊆ s.backfill ++ [r] := subset_append_left _ _
      refine moved_sound h.wellFormed hsub (List.Subset.refl _) h.wellFormed.counted ?_ ⟨hseq, ?_⟩
      · simp [hhand]
      · exact hnext _ _ hsub (List.Subset.refl _) (by simp)
    · exact goesTo_sound h.wellFormed hhand trivial

/-- One result of a batch from the ring. -/
theorem batch_sound {start : UnixMs} {rest : List ρ} (hd : s.drain = .batch start rest) :
    Sound s (s.drainStep ok now) := by
  have hwf := h.wellFormed
  have hhand : s.drain.inHand = rest := by rw [hd]; rfl
  cases rest with
  | nil =>
    simp only [drainStep, hd]
    exact goesTo_sound hwf hhand trivial
  | cons r rest =>
    simp only [drainStep, hd]
    split
    · refine moved_sound hwf (List.Subset.refl _) (subset_append_left _ _) ?_ ?_ trivial
      · simp [countDrop, hwf.counted]
      · rw [hhand]
        simp +contextual [Drain.inHand, countDrop]
    split
    · refine moved_sound hwf (subset_append_left _ _) (List.Subset.refl _) hwf.counted ?_
        trivial
      rw [hhand]
      simp +contextual [Drain.inHand]
    · -- What is in hand goes back to the ring.
      refine ⟨⟨hwf.beside, trivial⟩, ?_⟩
      rintro x (hx | hx | hx | hx | hx)
      · exact .inl hx
      · exact .inr (.inl hx)
      · rw [hhand] at hx
        exact .inr (.inr (.inr (.inl (mem_append_left _ hx))))
      · exact .inr (.inr (.inr (.inl (mem_append_right _ hx))))
      · exact .inr (.inr (.inr (.inr hx)))

/-- The removal of a segment that was replayed to its end. -/
theorem finished_sound (hd : s.drain = .finished seq read)
    (hsame : ∀ lines, s.files seq = some lines → lines.length = read) :
    Sound s (s.drainStep ok now) := by
  have hwf := h.wellFormed
  have hhand : s.drain.inHand = [] := by rw [hd]; rfl
  obtain ⟨-, hpassed⟩ : seq < s.nextSeq ∧ ∀ lines, s.files seq = some lines →
      read ≤ lines.length ∧ ∀ x ∈ lines.take read, x ∈ s.backfill ∨ x ∈ s.dropped := by
    simpa [ReplayOk, hd] using h.replay
  simp only [drainStep, hd, removeReplayed]
  split
  next => exact goesTo_sound hwf hhand trivial
  next seg rest hsegs =>
    split
    next hfirst =>
      have hwf' := withoutFirst_wellFormed hwf hsegs
      refine ⟨⟨hwf'.beside, trivial⟩, ?_⟩
      rintro x (hx | hx | hx | hx | hx | hx)
      · exact .inl hx
      · exact .inr (.inl hx)
      · rw [hhand] at hx
        simp at hx
      · exact .inr (.inr (.inr (.inl hx)))
      · rcases withoutFirst_filed hwf hsegs hx with hx | hx
        · -- The replay passed every line of the file.
          obtain ⟨hfile, -, -⟩ := hwf.linesOf_eq seg (by simp [hsegs])
          rw [hfirst] at hfile
          have hall := (hpassed _ hfile).2 x
          rw [← hsame _ hfile, take_length] at hall
          rcases hall hx with hx | hx
          · exact .inr (.inl hx)
          · exact .inr (.inr (.inr (.inr (.inr hx))))
        · exact .inr (.inr (.inr (.inr (.inl hx))))
      · exact .inr (.inr (.inr (.inr (.inr hx))))
    next => exact goesTo_sound hwf hhand trivial

/-- A batch taken from the ring is in the drain task's hand. -/
theorem noSegments_sound (hd : s.drain = .noSegments) : Sound s (s.drainStep ok now) := by
  have hwf := h.wellFormed
  have hhand : s.drain.inHand = [] := by rw [hd]; rfl
  simp only [drainStep, hd]
  split
  · exact goesTo_sound hwf hhand trivial
  · refine ⟨⟨hwf.beside, trivial⟩, ?_⟩
    rintro x (hx | hx | hx | hx | hx)
    · exact .inl hx
    · exact .inr (.inl hx)
    · rw [hhand] at hx
      simp at hx
    · rw [← take_append_drop replayBatch s.mem, mem_append] at hx
      rcases hx with hx | hx
      · exact .inr (.inr (.inl hx))
      · exact .inr (.inr (.inr (.inl hx)))
    · exact .inr (.inr (.inr (.inr hx)))

theorem drainStep_sound (hcare : Op.careful s (.drain ok now) = true) :
    Sound s (s.drainStep ok now) := by
  have hwf := h.wellFormed
  cases hd : s.drain with
  | idle =>
    simp only [drainStep, hd]
    split
    · exact goesTo_sound hwf (by rw [hd]; rfl) trivial
    · exact ⟨h, fun _ hx => hx⟩
  | top =>
    have hhand : s.drain.inHand = [] := by rw [hd]; rfl
    simp only [drainStep, hd]
    split
    · exact goesTo_sound hwf hhand trivial
    split
    next seg rest hsegs =>
      exact goesTo_sound hwf hhand (hwf.below seg (by simp [hsegs]))
    next => exact goesTo_sound hwf hhand trivial
  | chosen seq =>
    have hhand : s.drain.inHand = [] := by rw [hd]; rfl
    have hseq : seq < s.nextSeq := by simpa [ReplayOk, hd] using h.replay
    simp only [drainStep, hd]
    split
    next lines hfile =>
      refine goesTo_sound hwf hhand ⟨hseq, fun lines' hlines' => ?_⟩
      cases hfile.symm.trans hlines'
      exact ⟨le_rfl, [], by simp, by simp⟩
    next =>
      exact goesTo_sound hwf hhand ⟨hseq, fun lines' _ => ⟨Nat.zero_le _, by simp⟩⟩
  | replaying seq start read rest => exact replaying_sound h ok now hd
  | finished seq read =>
    refine finished_sound h ok now hd fun lines hlines => ?_
    simpa [Op.careful, hd, hlines] using hcare
  | noSegments => exact noSegments_sound h ok now hd
  | batch start rest => exact batch_sound h ok now hd

end

/-- A careful step keeps the invariant and loses nothing. -/
theorem step_sound (h : s.Inv) (op : Op ρ) (hcare : op.careful s = true) : Sound s (s.step op) := by
  cases op with
  | submit r avail => exact (submit_sound h r avail hcare).1
  | link connected => exact ⟨⟨h.wellFormed.beside, h.replay⟩, fun _ hx => hx⟩
  | drain ok now => exact drainStep_sound h ok now hcare

/-! ### The start -/

omit [Spillable ρ] in
theorem lookup_of_mem (hsorted : (dir.map Prod.fst).Pairwise (· < ·)) (hmem : entry ∈ dir) :
    dir.lookup entry.1 = some entry.2 := by
  induction dir with
  | nil => simp at hmem
  | cons first rest ih =>
    rw [map_cons, pairwise_cons] at hsorted
    rcases mem_cons.1 hmem with rfl | hmem
    · exact lookup_cons_self
    · have hne := (hsorted.1 _ (mem_map_of_mem hmem)).ne'
      have : (entry.1 == first.1) = false := by simpa using hne
      rw [lookup_cons, this]
      exact ih hsorted.2 hmem

omit [Spillable ρ] in
/-- The first number given out is above all numbers found. -/
theorem lt_nextSeq_of_mem (hmem : entry ∈ dir) :
    entry.1 < ((dir.map Prod.fst).max?.map (· + 1)).getD 0 := by
  have hmem' : entry.1 ∈ dir.map Prod.fst := mem_map_of_mem hmem
  cases hmax : (dir.map Prod.fst).max? with
  | none => simp [max?_eq_none_iff.1 hmax] at hmem'
  | some m =>
    have := (max?_eq_some_iff.1 hmax).2 entry.1 hmem'
    simp only [Option.map_some, Option.getD_some]
    omega

/-- The segments found at start-up are the files found. -/
theorem new_inv (cfg : SfConfig) (dir : SpillDir ρ) (connected : Bool) :
    (new cfg dir connected).Inv := by
  have hfound : ((if cfg.enabled && cfg.hasDir then dir.entries else []).map Prod.fst).Pairwise
      (· < ·) := by
    split
    · exact dir.sorted
    · exact List.Pairwise.nil
  unfold new
  refine ⟨⟨?_, ?_, ?_, ?_, ?_, rfl, rfl⟩, trivial⟩
  · simpa [prepareDir, comp_def] using hfound
  · intro seg hseg
    obtain ⟨entry, hentry, rfl⟩ := mem_map.1 hseg
    exact lt_nextSeq_of_mem hentry
  · intro seg hseg
    obtain ⟨entry, hentry, rfl⟩ := mem_map.1 hseg
    exact ⟨entry.2, lookup_of_mem hfound hentry, rfl, rfl⟩
  · intro k hk
    refine lookup_eq_none_iff.2 fun entry hentry => ?_
    have hlt := (lt_nextSeq_of_mem hentry).trans_le hk
    simpa using hlt.ne'
  · simp

/-! ### A complete drain -/

/-- The drain task goes on with every publish succeeding and the clock at `now`. -/
def Drains (now : UnixMs) : StoreForwardSink ρ → StoreForwardSink ρ → Prop :=
  Relation.ReflTransGen fun s t => t = s.drainStep true now

theorem Drains.step {now : UnixMs} (hu : s.drainStep true now = u) (h : Drains now u t) :
    Drains now s t :=
  Relation.ReflTransGen.head hu.symm h

theorem Drains.done {now : UnixMs} (h : s.drainStep true now = t) : Drains now s t :=
  Relation.ReflTransGen.single h.symm

variable (now : UnixMs)

/-- What the drain task holds is published in order. -/
theorem holding_drains {hold : List ρ → Drain ρ}
    (hnext : ∀ (s : StoreForwardSink ρ) r rest, s.connected = true → s.drain = hold (r :: rest) →
      s.tooOld now r = false →
      s.drainStep true now = { s with backfill := s.backfill ++ [r], drain := hold rest })
    (hend : ∀ s : StoreForwardSink ρ, s.drain = hold [] →
      s.drainStep true now = { s with drain := d })
    {rest : List ρ} (hup : s.connected = true) (hd : s.drain = hold rest)
    (hyoung : ∀ r ∈ rest, s.tooOld now r = false) :
    Drains now s { s with backfill := s.backfill ++ rest, drain := d } := by
  induction rest generalizing s with
  | nil =>
    apply Drains.done
    simpa using hend s hd
  | cons r rest ih =>
    apply Drains.step (hnext s r rest hup hd (hyoung r (by simp)))
    have hrest := ih (s := { s with backfill := s.backfill ++ [r], drain := hold rest }) hup rfl
      (fun x hx => hyoung x (by simp [hx]))
    simpa using hrest

/-- One segment is read, published and removed. -/
theorem segment_drains (h : s.WellFormed) (hup : s.connected = true) (hd : s.drain = .top)
    (hsegs : s.segments = seg :: rest) (hyoung : ∀ r ∈ s.linesOf seg, s.tooOld now r = false) :
    Drains now s
      { s.withoutFirst seg rest with backfill := s.backfill ++ s.linesOf seg, drain := .top } := by
  obtain ⟨hfile, -, -⟩ := h.linesOf_eq seg (by simp [hsegs])
  have hchoose : s.drainStep true now = { s with drain := .chosen seg.seq } := by
    simp [drainStep, hd, hup, hsegs]
  have hread : { s with drain := Drain.chosen seg.seq }.drainStep true now = { s with
      drain := .replaying seg.seq now (s.linesOf seg).length (s.linesOf seg) } := by
    simp [drainStep, hfile]
  apply Drains.step hchoose
  apply Drains.step hread
  refine (holding_drains (s := { s with
    drain := .replaying seg.seq now (s.linesOf seg).length (s.linesOf seg) })
    (d := .finished seg.seq (s.linesOf seg).length) now
    (fun t r rest hup hd hr => by simp [drainStep, hd, hup, hr])
    (fun t hd => by simp [drainStep, hd]) hup rfl hyoung).trans (Drains.done ?_)
  simp [drainStep, removeReplayed, withoutFirst, hsegs]

/-- The segments are drained oldest first. -/
theorem segments_drain (segs : List Segment) (h : s.WellFormed) (hup : s.connected = true)
    (hd : s.drain = .top) (hsegs : s.segments = segs)
    (hyoung : ∀ r ∈ segs.flatMap s.linesOf, s.tooOld now r = false) :
    ∃ t, Drains now s t ∧ t.drain = .top ∧ t.connected = true ∧ t.segments = [] ∧
      t.mem = s.mem ∧ t.cfg = s.cfg ∧ t.backfill = s.backfill ++ segs.flatMap s.linesOf := by
  induction segs generalizing s with
  | nil => exact ⟨s, Relation.ReflTransGen.refl, hd, hup, hsegs, rfl, rfl, by simp⟩
  | cons seg rest ih =>
    have hfirst := segment_drains now h hup hd hsegs fun r hr =>
      hyoung r (by simp [hr])
    have hlines : rest.flatMap (s.withoutFirst seg rest).linesOf = rest.flatMap s.linesOf := by
      refine flatMap_congr fun other hother => ?_
      rw [linesOf, linesOf, withoutFirst_files h hsegs hother]
    have hwf := withoutFirst_wellFormed h hsegs
    obtain ⟨t, ht, htop, htup, hempty, hmem, hcfg, hback⟩ := ih (s := { s.withoutFirst seg rest with
        backfill := s.backfill ++ s.linesOf seg, drain := .top })
      hwf.beside hup rfl rfl
      (fun r hr => hyoung r (by
        have hr : r ∈ rest.flatMap (s.withoutFirst seg rest).linesOf := hr
        rw [hlines] at hr
        exact mem_flatMap.2 ((mem_flatMap.1 hr).imp fun _ h => ⟨by simp [h.1], h.2⟩)))
    refine ⟨t, hfirst.trans ht, htop, htup, hempty, hmem, hcfg, ?_⟩
    rw [hback]
    show s.backfill ++ s.linesOf seg ++ rest.flatMap (s.withoutFirst seg rest).linesOf = _
    rw [hlines, flatMap_cons, append_assoc]

/-- The ring is drained batch by batch. -/
theorem ring_drains (n : Nat) (hn : s.mem.length ≤ n) (hup : s.connected = true)
    (hd : s.drain = .top) (hsegs : s.segments = []) (hyoung : ∀ r ∈ s.mem, s.tooOld now r = false) :
    ∃ t, Drains now s t ∧ t.drain = .idle ∧ t.segments = [] ∧ t.mem = [] ∧
      t.backfill = s.backfill ++ s.mem := by
  have hlook : s.drainStep true now = { s with drain := .noSegments } := by
    simp [drainStep, hd, hup, hsegs]
  induction n generalizing s with
  | zero =>
    have hmem : s.mem = [] := eq_nil_of_length_eq_zero (by omega)
    refine ⟨{ s with drain := .idle }, Drains.step hlook (Drains.done ?_), rfl, hsegs, hmem,
      by simp [hmem]⟩
    simp [drainStep, hmem]
  | succ n ih =>
    by_cases hmem : s.mem = []
    · exact ih (by simp [hmem]) hup hd hsegs hyoung hlook
    · -- One batch is published, and the rest of the ring is shorter.
      have htake : { s with drain := Drain.noSegments }.drainStep true now = { s with
          mem := s.mem.drop replayBatch
          drain := .batch now (s.mem.take replayBatch) } := by
        simp [drainStep, hmem]
      have hfirst : Drains now s { s with
          mem := s.mem.drop replayBatch
          backfill := s.backfill ++ s.mem.take replayBatch } := by
        apply Drains.step hlook
        apply Drains.step htake
        have hbatch := holding_drains (s := { s with
          mem := s.mem.drop replayBatch, drain := .batch now (s.mem.take replayBatch) })
          (d := .top) now
          (fun t r rest _ hd hr => by simp [drainStep, hd, hr])
          (fun t hd => by simp [drainStep, hd]) hup rfl
          (fun r hr => hyoung r (mem_of_mem_take hr))
        simpa [← hd] using hbatch
      have hshort : (s.mem.drop replayBatch).length ≤ n := by
        rw [length_drop, replayBatch]
        omega
      obtain ⟨t, ht, hidle, hempty, hring, hback⟩ := ih (s := { s with
          mem := s.mem.drop replayBatch
          backfill := s.backfill ++ s.mem.take replayBatch }) hshort hup hd hsegs
        (fun r hr => hyoung r (mem_of_mem_drop hr)) (by simp [drainStep, hd, hup, hsegs])
      refine ⟨t, hfirst.trans ht, hidle, hempty, hring, ?_⟩
      rw [hback]
      show s.backfill ++ s.mem.take replayBatch ++ s.mem.drop replayBatch = _
      rw [append_assoc, take_append_drop]

/-- A complete drain publishes what is buffered, in order, and leaves the buffer empty. -/
theorem complete_drain (h : s.WellFormed) (hon : s.cfg.enabled = true) (hup : s.connected = true)
    (hd : s.drain = .idle) (hyoung : ∀ r ∈ s.replayable, s.tooOld now r = false) :
    ∃ t, Drains now s t ∧ t.drain = .idle ∧ t.replayable = [] ∧
      t.backfill = s.backfill ++ s.replayable := by
  have hstart : Drains now s { s with drain := .top } := by
    apply Drains.done
    simp [drainStep, hd, hon, hup]
  obtain ⟨t, ht, htop, htup, hempty, hmem, hcfg, hback⟩ := segments_drain
    (s := { s with drain := .top }) now s.segments
    h.beside hup rfl rfl
    (fun r hr => hyoung r (mem_append_left _ hr))
  obtain ⟨u, hu, hidle, hempty', hring, hback'⟩ := ring_drains now t.mem.length le_rfl htup htop
    hempty (fun r hr => by
      rw [tooOld, hcfg]
      exact hyoung r (mem_append_right _ (hmem ▸ hr)))
  refine ⟨u, hstart.trans (ht.trans hu), hidle, by simp [replayable, hempty', hring], ?_⟩
  rw [hback', hback, hmem, append_assoc]
  rfl

/-! ### Every run -/

/-- What holds of the sink after the results `submitted` have been submitted: each of them is in
one of the places where it is not lost, the drop counter counts what was dropped, the gauges say
what is on disk and how much a complete drain would replay, and that drain is possible. -/
structure NothingLost (submitted : List ρ) (s : StoreForwardSink ρ) : Prop where
  placed : ∀ r ∈ submitted, s.Accounted r
  counted : s.droppedTotal = s.dropped.length
  diskBytes : s.diskBytes = (s.segments.map (·.bytes)).sum
  totalDepth : s.totalDepth = s.replayable.length
  drains : s.cfg.enabled = true → ∀ now, (∀ r ∈ s.replayable, s.tooOld now r = false) →
    ∃ t, Drains now { s with connected := true, drain := .idle } t ∧ t.drain = .idle ∧
      t.replayable = [] ∧ t.backfill = s.backfill ++ s.replayable

theorem Inv.nothingLost (h : s.Inv) {submitted : List ρ}
    (hplaced : ∀ r ∈ submitted, s.Accounted r) :
    s.NothingLost submitted where
  placed := hplaced
  counted := h.wellFormed.counted
  diskBytes := h.wellFormed.bytes
  totalDepth := h.wellFormed.totalDepth_eq
  drains := by
    intro hon now hyoung
    exact complete_drain (s := { s with connected := true, drain := .idle }) now
      h.wellFormed.beside hon rfl rfl hyoung

/-- The results a run submits. -/
def submitted (ops : List (Op ρ)) : List ρ :=
  ops.filterMap fun
    | .submit r _ => some r
    | _ => none

/-- A run whose steps are careful loses nothing silently. -/
theorem careful_run_loses_nothing (cfg : SfConfig) (dir : SpillDir ρ) (connected : Bool)
    (ops : List (Op ρ))
    (hcare : Meets (fun s op => Op.careful s op = true) step (new cfg dir connected) ops) :
    (ops.foldl step (new cfg dir connected)).NothingLost (submitted ops) := by
  have hrun := hcare.history
    (I := fun past s => s.Inv ∧ ∀ r ∈ submitted past, s.Accounted r) ?_
    ⟨new_inv cfg dir connected, by simp [submitted]⟩
  · exact hrun.1.nothingLost hrun.2
  · intro past s op hcare ⟨hinv, hplaced⟩
    have hsound := step_sound hinv op hcare
    refine ⟨hsound.inv, ?_⟩
    intro r hr
    rw [submitted, List.filterMap_append, mem_append] at hr
    rcases hr with hr | hr
    · exact hsound.accounted r (hplaced r hr)
    · cases op with
      | submit r' avail =>
        obtain rfl : r = r' := by simpa using hr
        exact (submit_sound hinv r avail hcare).2
      | link => simp at hr
      | drain => simp at hr

end StoreForwardSink

/-! ### Two runs that lose a result -/

/-- A result as the buffer sees it. -/
structure Line where
  id : Nat
  atUnixMs : UnixMs
  lineBytes : Nat
deriving DecidableEq

instance : Spillable Line := ⟨Line.atUnixMs, Line.lineBytes⟩

namespace StoreForwardSink

instance (s : StoreForwardSink Line) (x : Line) : Decidable (s.Accounted x) := by
  unfold Accounted Buffered Filed
  infer_instance

/-- A ring of one result, and segments of a hundred bytes. -/
def smallConfig : SfConfig :=
  { enabled := true, hasDir := true, memMax := 1, diskMaxBytes := 1000, maxAgeMs := 1000,
    freeFloorBytes := 0, segmentMaxBytes := 100 }

/-- A sink with an empty directory whose link is down. -/
def cutOff : StoreForwardSink Line := new smallConfig ⟨[], List.Pairwise.nil⟩ false

def line (id : Nat) : Line := ⟨id, 0, 10⟩

/-- The link is down for three results. -/
def outage (id : Nat) : List (Op Line) :=
  [.link false, .submit (line id) none, .submit (line (id + 1)) none, .submit (line (id + 2)) none]

/-- The link is down for one result. -/
def spill (id : Nat) : List (Op Line) := [.link false, .submit (line id) none]

/-- The link is back, and the drain task takes `n` steps. -/
def recovery (n : Nat) : List (Op Line) := .link true :: replicate n (.drain true 0)

theorem careful_run_loses_nothing_one_outage :
    (((outage 0 ++ recovery 12).foldl step cutOff).NothingLost [line 0, line 1, line 2]) ∧
      ((outage 0 ++ recovery 12).foldl step cutOff).backfill = [line 0, line 1, line 2] :=
  ⟨careful_run_loses_nothing smallConfig ⟨[], List.Pairwise.nil⟩ false (outage 0 ++ recovery 12)
    (by decide +kernel), by decide +kernel⟩

/-- After a complete replay the file of the removed segment is still open. A second outage spills
two results into it: they are nowhere, no drop is counted, and the gauge shows twenty bytes of no
segment. And a result spilled while the drain task replays the segment is removed with it. -/
theorem second_outage_loses_results :
    (let s := (outage 0 ++ recovery 12 ++ outage 3).foldl step cutOff
     ¬ s.Accounted (line 3) ∧ ¬ s.Accounted (line 4) ∧ s.droppedTotal = 0 ∧
       s.diskBytes = 20 ∧ s.segments = []) ∧
    (let s := (outage 0 ++ recovery 6 ++ spill 3 ++ recovery 1).foldl step cutOff
     ¬ s.Accounted (line 2) ∧ s.droppedTotal = 0) := by
  decide +kernel

end StoreForwardSink
end Yagra.Poller
