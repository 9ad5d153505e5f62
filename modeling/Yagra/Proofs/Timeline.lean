import Mathlib
import Yagra.History.Timeline

/-!
# `Yagra.Proofs.Timeline`: the availability timeline is exact

`availability_timeline_exact`. The spans of `flatten` are tidy (none is empty, they stand in order
and apart, and two that touch are of two kinds) and cover each instant with the kind that wins
there. The totals of `compute` are the counts of the milliseconds of each kind, rounded down to
seconds, and with the time up they make the period.

`Built.push` and `covers_pushSpan` are what both loops do to the list they build. The sweep is
carried by `Swept`: before the next edge the spans cover what wins there, and what is open is the
sum of the edges so far, which is how many intervals cover the gap that follows (`net_edges`).
-/

set_option autoImplicit false

namespace Yagra

open List

/-! ### Spans -/

/-- The instant is inside the interval. -/
def AvailabilitySpan.Holds (s : AvailabilitySpan) (t : Int) : Prop := s.fromMs ≤ t ∧ t < s.toMs

instance (s : AvailabilitySpan) (t : Int) : Decidable (s.Holds t) :=
  inferInstanceAs (Decidable (_ ∧ _))

/-- A span of this kind covers the instant. -/
def Covers (spans : List AvailabilitySpan) (kind : SpanKind) (t : Int) : Prop :=
  ∃ s ∈ spans, s.kind = kind ∧ s.Holds t

/-- The first ends before the second begins, or where it begins if they are of two kinds. -/
def AvailabilitySpan.Before (s s' : AvailabilitySpan) : Prop :=
  s.toMs < s'.fromMs ∨ s.toMs = s'.fromMs ∧ s.kind ≠ s'.kind

/-- No span is empty, and they stand in order and apart. -/
structure Tidy (spans : List AvailabilitySpan) : Prop where
  nonempty : ∀ s ∈ spans, s.fromMs < s.toMs
  ordered : spans.Pairwise AvailabilitySpan.Before

/-- The list as it is built, newest first, with everything in it ended by `t`. -/
structure Built (out : List AvailabilitySpan) (t : Int) : Prop where
  nonempty : ∀ s ∈ out, s.fromMs < s.toMs
  ordered : out.Pairwise fun s s' => s'.Before s
  ended : ∀ s ∈ out, s.toMs ≤ t

section
variable {out : List AvailabilitySpan} {span : AvailabilitySpan} {t : Int}

theorem Built.nil (t : Int) : Built [] t := ⟨by simp, .nil, by simp⟩

theorem Built.mono (h : Built out t) {t' : Int} (ht : t ≤ t') : Built out t' :=
  ⟨h.nonempty, h.ordered, fun s hs => (h.ended s hs).trans ht⟩

theorem Built.tidy (h : Built out t) : Tidy out.reverse :=
  ⟨fun s hs => h.nonempty s (mem_reverse.1 hs), pairwise_reverse.2 h.ordered⟩

theorem Built.push (h : Built out span.fromMs) (hspan : span.fromMs < span.toMs) :
    Built (pushSpan out span) span.toMs := by
  cases out with
  | nil => exact ⟨by simpa [pushSpan] using hspan, pairwise_singleton _ _, by simp [pushSpan]⟩
  | cons last before =>
    obtain ⟨hlast, hbefore⟩ := pairwise_cons.1 h.ordered
    have hnonempty := h.nonempty last mem_cons_self
    rw [pushSpan]
    split
    next hjoin =>
      refine ⟨forall_mem_cons.2 ⟨?_, (forall_mem_cons.1 h.nonempty).2⟩,
        pairwise_cons.2 ⟨fun s hs => hlast s hs, hbefore⟩,
        forall_mem_cons.2 ⟨le_refl _, fun s hs => ?_⟩⟩
      · show last.fromMs < span.toMs
        omega
      · exact (h.ended s (mem_cons_of_mem last hs)).trans hspan.le
    next hapart =>
      have hended := h.ended last mem_cons_self
      refine ⟨forall_mem_cons.2 ⟨hspan, h.nonempty⟩,
        pairwise_cons.2 ⟨forall_mem_cons.2 ⟨?_, fun s hs => ?_⟩, h.ordered⟩,
        forall_mem_cons.2 ⟨le_refl _, fun s hs => (h.ended s hs).trans hspan.le⟩⟩
      · rcases lt_or_eq_of_le hended with hlt | heq
        · exact .inl hlt
        · exact .inr ⟨heq, fun hkind => hapart ⟨hkind, heq⟩⟩
      -- A span further back ends before the last one begins.
      · rcases hlast s hs with hlt | ⟨heq, -⟩ <;> exact .inl (by omega)

theorem covers_cons {s : AvailabilitySpan} {kind : SpanKind} :
    Covers (s :: out) kind t ↔ s.kind = kind ∧ s.Holds t ∨ Covers out kind t := by
  simp [Covers]

theorem covers_pushSpan (h : Built out span.fromMs) (hspan : span.fromMs < span.toMs)
    (kind : SpanKind) (t : Int) :
    Covers (pushSpan out span) kind t ↔ Covers out kind t ∨ span.kind = kind ∧ span.Holds t := by
  cases out with
  | nil => simp [pushSpan, Covers]
  | cons last before =>
    have hnonempty := h.nonempty last mem_cons_self
    rw [pushSpan]
    split
    next hjoin =>
      have hboth : last.fromMs ≤ t ∧ t < span.toMs ↔ last.Holds t ∨ span.Holds t := by
        unfold AvailabilitySpan.Holds
        omega
      rw [covers_cons, covers_cons]
      rw [show AvailabilitySpan.Holds { last with toMs := span.toMs } t ↔ _ from hboth, hjoin.1]
      tauto
    next =>
      rw [covers_cons]
      exact or_comm

theorem covers_reverse {kind : SpanKind} : Covers out.reverse kind t ↔ Covers out kind t := by
  simp [Covers]

end

/-! ### Edges -/

/-- The sum of the edges of a kind. -/
def net (kind : SpanKind) (l : List SpanEdge) : Int :=
  ((l.filter fun e => e.kind = kind).map SpanEdge.delta).sum

variable (tagged : List AvailabilitySpan) (kind : SpanKind)

theorem net_append (l l' : List SpanEdge) : net kind (l ++ l') = net kind l + net kind l' := by
  simp [net]

theorem net_singleton (e : SpanEdge) : net kind [e] = if e.kind = kind then e.delta else 0 := by
  by_cases he : e.kind = kind <;> simp [net, he]

theorem net_perm {l l' : List SpanEdge} (h : l.Perm l') : net kind l = net kind l' :=
  ((h.filter _).map _).sum_eq

/-- The kind that wins at an instant. -/
def winner (tagged : List AvailabilitySpan) (t : Int) : Option SpanKind :=
  SpanKind.all.find? fun k => tagged.any fun i => decide (i.kind = k ∧ i.Holds t)

theorem spanEdges_cons (i : AvailabilitySpan) :
    spanEdges (i :: tagged) = spanEdges [i] ++ spanEdges tagged := by
  simp [spanEdges]

/-- The edges up to an instant add up to the intervals that cover it. -/
theorem net_edges (t : Int) :
    net kind ((spanEdges tagged).filter fun e => e.time ≤ t)
      = tagged.countP fun i => decide (i.kind = kind ∧ i.Holds t) := by
  induction tagged with
  | nil => rfl
  | cons i rest ih =>
    have hone : net kind ((spanEdges [i]).filter fun e => e.time ≤ t)
        = if i.kind = kind ∧ i.Holds t then 1 else 0 := by
      unfold spanEdges AvailabilitySpan.Holds
      by_cases hkind : i.kind = kind <;> by_cases hfrom : i.fromMs ≤ t <;>
        by_cases hto : i.toMs ≤ t <;> by_cases hlt : i.fromMs < i.toMs <;>
        simp [net, hkind, hfrom, hto, hlt] <;> omega
    rw [spanEdges_cons, filter_append, net_append, hone, ih]
    by_cases hi : i.kind = kind ∧ i.Holds t <;> simp [hi, add_comm]

/-- What the edges up to an instant leave open there. -/
def openAt (l : List SpanEdge) (t : Int) (kind : SpanKind) : Int :=
  net kind (l.filter fun e => e.time ≤ t)

theorem topKind_openAt {tagged : List AvailabilitySpan} {l : List SpanEdge}
    (h : l.Perm (spanEdges tagged)) (t : Int) : topKind (openAt l t) = winner tagged t := by
  unfold topKind winner openAt
  congr
  funext kind
  rw [net_perm kind (h.filter _), net_edges, Bool.eq_iff_iff, decide_eq_true_iff, Int.natCast_pos,
    countP_pos_iff, any_eq_true]

/-! ### The sweep -/

/-- Before an instant the spans cover what wins there. -/
structure Swept (l : List SpanEdge) (out : List AvailabilitySpan) (t : Int) : Prop where
  built : Built out t
  covers : ∀ kind t', Covers out kind t' ↔ t' < t ∧ topKind (openAt l t') = some kind

section
variable {l before rest : List SpanEdge} {out : List AvailabilitySpan} {e next : SpanEdge} {t : Int}

/-- In the gap after an edge, what is open is what the edges up to it leave. -/
theorem openAt_gap (hsorted : (before ++ e :: next :: rest).Pairwise fun e e' => e.time ≤ e'.time)
    (hfrom : e.time ≤ t) (hto : t < next.time) (kind : SpanKind) :
    openAt (before ++ e :: next :: rest) t kind = net kind (before ++ [e]) := by
  obtain ⟨-, hrest, hbefore⟩ := pairwise_append.1 hsorted
  obtain ⟨-, hnext⟩ := pairwise_cons.1 hrest
  have hpast : ∀ e' ∈ before ++ [e], decide (e'.time ≤ t) = true := by
    intro e' he'
    rcases mem_append.1 he' with hmem | hmem
    · exact decide_eq_true ((hbefore e' hmem e mem_cons_self).trans hfrom)
    · exact mem_singleton.1 hmem ▸ decide_eq_true hfrom
  have hfuture : ∀ e' ∈ next :: rest, ¬ decide (e'.time ≤ t) = true := by
    refine forall_mem_cons.2 ⟨?_, fun e' he' => ?_⟩
    · simpa using hto
    · have := (pairwise_cons.1 hnext).1 e' he'
      rw [decide_eq_true_iff]
      omega
  unfold openAt
  rw [append_cons before e, filter_append, filter_eq_self.2 hpast,
    filter_eq_nil_iff.2 hfuture, append_nil]

theorem Swept.gap (h : Swept (before ++ e :: next :: rest) out e.time)
    (hsorted : (before ++ e :: next :: rest).Pairwise fun e e' => e.time ≤ e'.time)
    (hlt : e.time < next.time) :
    Swept (before ++ e :: next :: rest)
      (match topKind fun kind => net kind (before ++ [e]) with
        | some kind => pushSpan out ⟨kind, e.time, next.time⟩
        | none => out) next.time := by
  have hgap : ∀ t, e.time ≤ t → t < next.time →
      topKind (openAt (before ++ e :: next :: rest) t)
        = topKind fun kind => net kind (before ++ [e]) := fun t hfrom hto =>
    congrArg topKind (funext fun kind => openAt_gap hsorted hfrom hto kind)
  cases htop : topKind fun kind => net kind (before ++ [e]) with
  | some top =>
    refine ⟨h.built.push hlt, fun kind t => ?_⟩
    rw [covers_pushSpan h.built hlt, h.covers]
    show _ ∨ top = kind ∧ e.time ≤ t ∧ t < next.time ↔ _
    by_cases hfrom : e.time ≤ t
    · by_cases hto : t < next.time
      · simp [hgap t hfrom hto, htop, hfrom, hto, not_lt.2 hfrom]
      · simp [hto, not_lt.2 hfrom]
    · simp [hfrom, not_le.1 hfrom, (not_le.1 hfrom).trans hlt]
  | none =>
    refine ⟨h.built.mono hlt.le, fun kind t => ?_⟩
    rw [h.covers]
    by_cases hfrom : e.time ≤ t
    · by_cases hto : t < next.time
      · simp [hgap t hfrom hto, htop, not_lt.2 hfrom]
      · simp [hto, not_lt.2 hfrom]
    · simp [not_le.1 hfrom, (not_le.1 hfrom).trans hlt]

/-- The loop, from any point of the edges on. -/
theorem sweepSpans_spec (hsorted : l.Pairwise fun e e' => e.time ≤ e'.time)
    (hzero : ∀ kind, net kind l = 0) {openCount : SpanKind → Int} (hl : l = before ++ rest)
    (hopen : ∀ kind, openCount kind = net kind before)
    (hswept : ∀ e ∈ rest.head?, Swept l out e.time) (hnil : rest = [] → out = [] ∧ l = []) :
    (∃ t, Built (sweepSpans openCount out rest) t) ∧
      ∀ kind t, Covers (sweepSpans openCount out rest) kind t ↔
        topKind (openAt l t) = some kind := by
  induction rest generalizing before openCount out with
  | nil =>
    obtain ⟨rfl, rfl⟩ := hnil rfl
    refine ⟨⟨0, .nil 0⟩, fun kind t => ⟨fun ⟨s, hs, _⟩ => absurd hs not_mem_nil, fun h => ?_⟩⟩
    exact absurd (h.symm.trans (show topKind (fun _ => 0) = none from rfl)) (by simp)
  | cons e rest ih =>
    have hup := hswept e rfl
    have hstep : ∀ kind, Function.update openCount e.kind (openCount e.kind + e.delta) kind
        = net kind (before ++ [e]) := fun kind => by
      rw [net_append, net_singleton, Function.update_apply]
      by_cases hkind : kind = e.kind
      · rw [if_pos hkind, if_pos hkind.symm, hkind, hopen]
      · rw [if_neg hkind, if_neg (Ne.symm hkind), hopen, add_zero]
    have hl' : l = before ++ [e] ++ rest := by rw [hl, append_cons]
    cases rest with
    | nil =>
      -- After the last edge nothing is open.
      refine ⟨⟨_, hup.built⟩, fun kind t => (hup.covers kind t).trans ?_⟩
      refine and_iff_right_of_imp fun htop => ?_
      by_contra hge
      have hall : ∀ e' ∈ l, decide (e'.time ≤ t) = true := fun e' he' => by
        rw [hl] at hsorted he'
        obtain ⟨-, -, hbefore⟩ := pairwise_append.1 hsorted
        rcases mem_append.1 he' with hmem | hmem
        · exact decide_eq_true ((hbefore e' hmem e mem_cons_self).trans (not_lt.1 hge))
        · exact mem_singleton.1 hmem ▸ decide_eq_true (not_lt.1 hge)
      have hnone : topKind (openAt l t) = none := by
        unfold openAt
        rw [filter_eq_self.2 hall]
        simp [topKind, hzero]
      rw [hnone] at htop
      cases htop
    | cons next rest =>
      rw [sweepSpans]
      split
      next heq =>
        refine ih hl' hstep (fun e' he' => ?_) (fun h => by cases h)
        cases he'
        rw [heq]
        exact hup
      next hne =>
        have hlt : e.time < next.time := by
          rw [hl] at hsorted
          have := (pairwise_cons.1 (pairwise_append.1 hsorted).2.1).1 next
            mem_cons_self
          omega
        have hgap := Swept.gap (hl ▸ hup) (hl ▸ hsorted) hlt
        rw [← hl, ← show _ = topKind _ from congrArg topKind (funext hstep)] at hgap
        split
        next top htop =>
          rw [htop] at hgap
          exact ih hl' hstep (fun e' he' => Option.some.inj he' ▸ hgap) (fun h => by cases h)
        next hnone =>
          rw [hnone] at hgap
          exact ih hl' hstep (fun e' he' => Option.some.inj he' ▸ hgap) (fun h => by cases h)

end

theorem net_spanEdges : net kind (spanEdges tagged) = 0 := by
  induction tagged with
  | nil => rfl
  | cons i rest ih =>
    rw [spanEdges_cons, net_append, ih]
    unfold spanEdges
    by_cases hkind : i.kind = kind <;> by_cases hlt : i.fromMs < i.toMs <;> simp [net, hkind, hlt]

theorem flatten_spec :
    Tidy (flatten tagged) ∧
      ∀ kind t, Covers (flatten tagged) kind t ↔ winner tagged t = some kind := by
  set l := (spanEdges tagged).mergeSort fun e e' => decide (e.time ≤ e'.time) with hdef
  have hperm : l.Perm (spanEdges tagged) := mergeSort_perm _ _
  have hsorted : l.Pairwise fun e e' => e.time ≤ e'.time := by
    refine (pairwise_mergeSort ?_ ?_ _).imp of_decide_eq_true
    · intro a b c hab hbc
      exact decide_eq_true ((of_decide_eq_true hab).trans (of_decide_eq_true hbc))
    · intro a b
      simpa using le_total a.time b.time
  have hstart : ∀ e ∈ l.head?, Swept l [] e.time := fun e he => by
    refine ⟨.nil _, fun kind t => ⟨fun ⟨s, hs, _⟩ => absurd hs not_mem_nil, fun ⟨hlt, htop⟩ => ?_⟩⟩
    have hnone : l.filter (fun e' => decide (e'.time ≤ t)) = [] := by
      refine filter_eq_nil_iff.2 fun e' he' => ?_
      obtain ⟨rest, hl⟩ := head?_eq_some_iff.1 he
      rw [hl] at hsorted he'
      have : e.time ≤ e'.time := by
        rcases mem_cons.1 he' with rfl | hmem
        · exact le_refl _
        · exact (pairwise_cons.1 hsorted).1 e' hmem
      rw [decide_eq_true_iff]
      omega
    unfold openAt at htop
    rw [hnone] at htop
    exact absurd htop (by simp [topKind, net, SpanKind.all])
  obtain ⟨⟨t, hbuilt⟩, hcovers⟩ := sweepSpans_spec hsorted
    (fun kind => (net_perm kind hperm).trans (net_spanEdges tagged kind))
    (show l = [] ++ l from rfl) (fun kind => (rfl : 0 = net kind [])) hstart fun hnil => ⟨rfl, hnil⟩
  exact ⟨hbuilt.tidy, fun kind t => covers_reverse.trans ((hcovers kind t).trans
    (by rw [topKind_openAt hperm]))⟩

/-! ### The time without a record -/

section
variable {spans : List AvailabilitySpan} {fromMs toMs : Int}

/-- The spans lie inside the period. -/
def Inside (spans : List AvailabilitySpan) (fromMs toMs : Int) : Prop :=
  ∀ s ∈ spans, fromMs ≤ s.fromMs ∧ s.toMs ≤ toMs

/-- What the loop has built from the spans so far. -/
structure Filled (spans : List AvailabilitySpan) (fromMs : Int) (s : List AvailabilitySpan × Int) :
    Prop where
  built : Built s.1 s.2
  begins : ∀ s' ∈ s.1, fromMs ≤ s'.fromMs
  ended : ∀ s' ∈ spans, s'.toMs ≤ s.2
  least : ∀ b, fromMs ≤ b → (∀ s' ∈ spans, s'.toMs ≤ b) → s.2 ≤ b
  covers : ∀ kind t, Covers s.1 kind t ↔ Covers spans kind t ∨
    kind = .noRecord ∧ fromMs ≤ t ∧ t < s.2 ∧ ∀ kind, ¬ Covers spans kind t

theorem begins_pushSpan {out : List AvailabilitySpan} {span : AvailabilitySpan}
    (h : ∀ s ∈ out, fromMs ≤ s.fromMs) (hspan : fromMs ≤ span.fromMs) :
    ∀ s ∈ pushSpan out span, fromMs ≤ s.fromMs := by
  cases out with
  | nil => simpa [pushSpan] using hspan
  | cons last before =>
    rw [pushSpan]
    split
    · exact forall_mem_cons.2 (forall_mem_cons.1 h)
    · exact forall_mem_cons.2 ⟨hspan, h⟩

/-- The gap before an instant is filled. -/
theorem Filled.gap {s : List AvailabilitySpan × Int} (h : Filled spans fromMs s)
    (hfrom : fromMs ≤ s.2)
    {b : Int} (hb : s.2 ≤ b) :
    let out := if s.2 < b then pushSpan s.1 ⟨.noRecord, s.2, b⟩ else s.1
    Built out b ∧ (∀ s' ∈ out, fromMs ≤ s'.fromMs) ∧ ∀ kind t, Covers out kind t ↔
      Covers spans kind t ∨
        kind = .noRecord ∧ fromMs ≤ t ∧ t < b ∧ ∀ kind, ¬ Covers spans kind t := by
  intro out
  by_cases hlt : s.2 < b
  · have hout : out = pushSpan s.1 ⟨.noRecord, s.2, b⟩ := if_pos hlt
    have hbuilt : Built s.1 (AvailabilitySpan.mk .noRecord s.2 b).fromMs := h.built
    rw [hout]
    refine ⟨hbuilt.push hlt, begins_pushSpan h.begins hfrom, fun kind t => ?_⟩
    rw [covers_pushSpan hbuilt hlt, h.covers]
    have hpast : s.2 ≤ t → ∀ kind, ¬ Covers spans kind t := by
      rintro hle kind ⟨s', hs', -, -, hto⟩
      have := h.ended s' hs'
      omega
    show _ ∨ SpanKind.noRecord = kind ∧ s.2 ≤ t ∧ t < b ↔ _
    by_cases ht : s.2 ≤ t
    · simp only [hpast ht, false_or, not_lt.2 ht, and_false, not_false_eq_true,
        implies_true, and_true, ht, true_and, hfrom.trans ht, eq_comm]
    · simp only [ht, false_and, and_false, or_false, not_le.1 ht, (not_le.1 ht).trans hlt]
  · have hout : out = s.1 := if_neg hlt
    obtain rfl : s.2 = b := le_antisymm hb (not_lt.1 hlt)
    rw [hout]
    exact ⟨h.built, h.begins, h.covers⟩

theorem filled_foldl (h : Tidy spans) (hinside : ∀ s ∈ spans, fromMs ≤ s.fromMs) :
    fromMs ≤ (spans.foldl fillSpan ([], fromMs)).2 ∧
      Filled spans fromMs (spans.foldl fillSpan ([], fromMs)) := by
  induction spans using reverseRecOn with
  | nil =>
    refine ⟨le_refl _, .nil _, by simp, by simp, fun b hb _ => hb, fun kind t => ?_⟩
    simp only [foldl_nil, Covers, not_mem_nil, false_and, exists_false, false_or,
      not_false_eq_true, implies_true, and_true, false_iff]
    omega
  | append_singleton spans span ih =>
    obtain ⟨hordered, -, hlast⟩ := pairwise_append.1 h.ordered
    obtain ⟨hfrom, hfilled⟩ := ih ⟨fun s hs => h.nonempty s (mem_append_left _ hs), hordered⟩
      fun s hs => hinside s (mem_append_left _ hs)
    have hspan := h.nonempty span (by simp)
    have hbefore : (spans.foldl fillSpan ([], fromMs)).2 ≤ span.fromMs := by
      refine hfilled.least _ (hinside span (by simp)) fun s hs => ?_
      rcases hlast s hs span (by simp) with hlt | ⟨heq, -⟩ <;> omega
    obtain ⟨hbuilt, hbegins, hcovers⟩ := hfilled.gap hfrom hbefore
    rw [foldl_append, foldl_cons, foldl_nil, fillSpan,
      max_eq_right (hbefore.trans hspan.le)]
    refine ⟨hfrom.trans (hbefore.trans hspan.le), hbuilt.push hspan,
      begins_pushSpan hbegins (hfrom.trans hbefore), ?_, fun b _ hb => hb span (by simp), ?_⟩
    · refine forall_mem_append.2 ⟨fun s hs => ?_, forall_mem_singleton.2 le_rfl⟩
      exact (hfilled.ended s hs).trans (hbefore.trans hspan.le)
    · intro kind t
      have hsplit : ∀ kind, Covers (spans ++ [span]) kind t ↔
          Covers spans kind t ∨ span.kind = kind ∧ span.Holds t := fun kind => by
        simp [Covers, or_and_right, exists_or]
      have hpast : span.fromMs ≤ t → ∀ kind, ¬ Covers spans kind t := by
        rintro hle kind ⟨s, hs, -, -, hto⟩
        have := hfilled.ended s hs
        omega
      rw [covers_pushSpan hbuilt hspan, hcovers]
      simp only [hsplit]
      unfold AvailabilitySpan.Holds
      by_cases ht : span.fromMs ≤ t
      · by_cases hto : t < span.toMs
        · simp [hpast ht, ht, hto, not_lt.2 ht]
        · simp [hpast ht, hto, not_lt.2 ht]
      · simp [ht, not_le.1 ht, (not_le.1 ht).trans hspan]

theorem fillUnrecorded_spec (h : Tidy spans) (hinside : Inside spans fromMs toMs)
    (hperiod : fromMs ≤ toMs) :
    Tidy (fillUnrecorded spans fromMs toMs) ∧
      Inside (fillUnrecorded spans fromMs toMs) fromMs toMs ∧
      ∀ kind t, Covers (fillUnrecorded spans fromMs toMs) kind t ↔ Covers spans kind t ∨
        kind = .noRecord ∧ fromMs ≤ t ∧ t < toMs ∧ ∀ kind, ¬ Covers spans kind t := by
  obtain ⟨hfrom, hfilled⟩ := filled_foldl h fun s hs => (hinside s hs).1
  have hto := hfilled.least toMs hperiod fun s hs => (hinside s hs).2
  obtain ⟨hbuilt, hbegins, hcovers⟩ := hfilled.gap hfrom hto
  refine ⟨hbuilt.tidy, fun s hs => ?_, fun kind t => covers_reverse.trans (hcovers kind t)⟩
  have hs := mem_reverse.1 hs
  exact ⟨hbegins s hs, hbuilt.ended s hs⟩

end

/-! ### The totals -/

section
open Finset
open scoped Classical

/-- How many milliseconds of the period are of a kind. -/
noncomputable def millisOf (kindAt : Int → Option SpanKind) (fromMs toMs : Int)
    (kind : SpanKind) : Nat :=
  #{t ∈ Ico fromMs toMs | kindAt t = some kind}

variable {spans : List AvailabilitySpan} {fromMs toMs : Int}

/-- The lengths of tidy spans add up to the number of milliseconds they cover. -/
theorem spanMillis_eq_card (h : Tidy spans) (hinside : Inside spans fromMs toMs) (kind : SpanKind) :
    spanMillis spans kind = #{t ∈ Ico fromMs toMs | Covers spans kind t} := by
  induction spans with
  | nil => simp [spanMillis, Covers]
  | cons s rest ih =>
    obtain ⟨hfirst, hrest⟩ := pairwise_cons.1 h.ordered
    have hs := h.nonempty s mem_cons_self
    have hin := hinside s mem_cons_self
    have ih := ih ⟨fun s' hs' => h.nonempty s' (mem_cons_of_mem s hs'), hrest⟩
      fun s' hs' => hinside s' (mem_cons_of_mem s hs')
    have hcons : spanMillis (s :: rest) kind
        = (if s.kind = kind then s.toMs - s.fromMs else 0) + spanMillis rest kind := by
      by_cases hkind : s.kind = kind <;> simp [spanMillis, hkind]
    have hown : (#{t ∈ Ico fromMs toMs | s.kind = kind ∧ s.Holds t} : Int)
        = if s.kind = kind then s.toMs - s.fromMs else 0 := by
      by_cases hkind : s.kind = kind
      · have heq : {t ∈ Ico fromMs toMs | s.kind = kind ∧ s.Holds t} = Ico s.fromMs s.toMs := by
          ext t
          simp only [Finset.mem_filter, mem_Ico, hkind, AvailabilitySpan.Holds, true_and]
          omega
        rw [heq, if_pos hkind, Int.card_Ico, Int.toNat_of_nonneg (by omega)]
      · simp [hkind]
    have hdisjoint : Disjoint {t ∈ Ico fromMs toMs | s.kind = kind ∧ s.Holds t}
        {t ∈ Ico fromMs toMs | Covers rest kind t} := by
      refine disjoint_filter.2 ?_
      rintro t - ⟨-, -, hto⟩ ⟨s', hs', -, hfrom', -⟩
      rcases hfirst s' hs' with hlt | ⟨heq, -⟩ <;> omega
    have hunion : {t ∈ Ico fromMs toMs | Covers (s :: rest) kind t}
        = {t ∈ Ico fromMs toMs | s.kind = kind ∧ s.Holds t}
          ∪ {t ∈ Ico fromMs toMs | Covers rest kind t} := by
      rw [← filter_or]
      exact filter_congr fun t _ => covers_cons
    rw [hcons, hunion, card_union_of_disjoint hdisjoint, ih, Nat.cast_add, hown]

/-- The kinds have no millisecond in common. -/
theorem millisOf_le (kindAt : Int → Option SpanKind) (hperiod : fromMs ≤ toMs) :
    (millisOf kindAt fromMs toMs .down + millisOf kindAt fromMs toMs .maintenance
      + millisOf kindAt fromMs toMs .noRecord : Int) ≤ toMs - fromMs := by
  have hdisjoint : ∀ k k', k ≠ k' → Disjoint {t ∈ Ico fromMs toMs | kindAt t = some k}
      {t ∈ Ico fromMs toMs | kindAt t = some k'} := fun k k' hne =>
    disjoint_filter.2 fun t _ h h' => hne (Option.some.inj (h.symm.trans h'))
  have hsub : {t ∈ Ico fromMs toMs | kindAt t = some .down}
      ∪ {t ∈ Ico fromMs toMs | kindAt t = some .maintenance}
      ∪ {t ∈ Ico fromMs toMs | kindAt t = some .noRecord} ⊆ Ico fromMs toMs :=
    union_subset (union_subset (filter_subset _ _) (filter_subset _ _)) (filter_subset _ _)
  have hcard := card_le_card hsub
  rw [card_union_of_disjoint (disjoint_union_left.2 ⟨hdisjoint _ _ (by decide),
    hdisjoint _ _ (by decide)⟩), card_union_of_disjoint (hdisjoint _ _ (by decide)),
    Int.card_Ico] at hcard
  unfold millisOf
  omega

end

variable (inputs : AvailabilityInputs)

/-- What a node was at an instant of the period. Time that nothing would record is not up. -/
def AvailabilityInputs.kindAt (fromMs toMs t : Int) : Option SpanKind :=
  if inputs.unobserved then some ((winner (inputs.tagged fromMs toMs) t).getD .noRecord)
  else winner (inputs.tagged fromMs toMs) t

theorem tagged_inside (fromMs toMs : Int) : Inside (inputs.tagged fromMs toMs) fromMs toMs := by
  have hclip : ∀ {kind : SpanKind} {l : List (Int × Int)} {s : AvailabilitySpan},
      s ∈ l.filterMap (clip fromMs toMs kind) → fromMs ≤ s.fromMs ∧ s.toMs ≤ toMs := fun hs => by
    obtain ⟨i, -, hi⟩ := mem_filterMap.1 hs
    obtain rfl := Option.some.inj (Option.ite_none_right_eq_some.1 hi).2
    exact ⟨le_max_right _ _, min_le_right _ _⟩
  intro s hs
  rcases mem_append.1 hs with hs | hs
  · exact (mem_append.1 hs).elim hclip hclip
  · exact hclip hs

theorem winner_holds {tagged : List AvailabilitySpan} {t : Int} {kind : SpanKind}
    (h : winner tagged t = some kind) : ∃ i ∈ tagged, i.kind = kind ∧ i.Holds t := by
  have hany := find?_some (show SpanKind.all.find? _ = some kind from h)
  obtain ⟨i, hi, hholds⟩ := any_eq_true.1 hany
  exact ⟨i, hi, of_decide_eq_true hholds⟩

/-- A tidy timeline lies inside the period if what it covers does. -/
theorem Tidy.inside {spans : List AvailabilitySpan} {fromMs toMs : Int} (h : Tidy spans)
    (hcovers : ∀ kind t, Covers spans kind t → fromMs ≤ t ∧ t < toMs) :
    Inside spans fromMs toMs := by
  intro s hs
  have hnonempty := h.nonempty s hs
  have hfirst := hcovers s.kind s.fromMs ⟨s, hs, rfl, le_refl _, hnonempty⟩
  have hlast := hcovers s.kind (s.toMs - 1) ⟨s, hs, rfl, by omega, by omega⟩
  omega

theorem allSpans_spec {fromMs toMs : Int} (hperiod : fromMs ≤ toMs) :
    Tidy (inputs.allSpans fromMs toMs) ∧ Inside (inputs.allSpans fromMs toMs) fromMs toMs ∧
      ∀ kind t, fromMs ≤ t → t < toMs →
        (Covers (inputs.allSpans fromMs toMs) kind t ↔
          inputs.kindAt fromMs toMs t = some kind) := by
  obtain ⟨htidy, hcovers⟩ := flatten_spec (inputs.tagged fromMs toMs)
  have hinside : Inside (flatten (inputs.tagged fromMs toMs)) fromMs toMs := by
    refine htidy.inside fun kind t ht => ?_
    obtain ⟨i, hi, -, hfrom, hto⟩ := winner_holds ((hcovers kind t).1 ht)
    obtain ⟨hin, hin'⟩ := tagged_inside inputs fromMs toMs i hi
    exact ⟨hin.trans hfrom, hto.trans_le hin'⟩
  unfold AvailabilityInputs.allSpans AvailabilityInputs.kindAt
  split
  next =>
    obtain ⟨htidy', hinside', hcovers'⟩ := fillUnrecorded_spec htidy hinside hperiod
    refine ⟨htidy', hinside', fun kind t hfrom hto => (hcovers' kind t).trans ?_⟩
    simp only [hcovers, hfrom, hto, true_and]
    cases winner (inputs.tagged fromMs toMs) t with
    | none => simp [eq_comm]
    | some top => simp
  next => exact ⟨htidy, hinside, fun kind t _ _ => hcovers kind t⟩

theorem AvailabilityPeriod.millis_nonneg (period : AvailabilityPeriod) : 0 ≤ period.millis := by
  cases period <;> simp [millis]

end Yagra
