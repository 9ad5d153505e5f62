import Mathlib.Data.Finset.Max
import Mathlib.Data.List.Pairwise
import Yagra.History.Table

/-!
# `Yagra.Proofs.Retention`: retention and the open alerts

A retention pass looks at when a row was recorded. It keeps the latest row of a check when that is a
Fire, and which row is the latest is told by the time of the alert. `openAlerts_pruned` compares a
table that was pruned at any times with the same table without a pass: the two have the same open
rows, if no Fire was written after a Resolve of its check that is later than it (`Overtaken`).

Without the condition a pass may delete that Resolve and keep the Fire, which is then the latest
row. `pruned_resolve_reopens` is such a run: the channel is full when the Resolve comes, so it is
written before its own Fire.
-/

set_option autoImplicit false

namespace Yagra

open HistoryOp List

namespace HistoryTable

variable {full table : HistoryTable} {r : HistoryRow}

/-! ### The open rows -/

theorem hasNewer_iff :
    table.hasNewer r = true ↔
      ∃ n ∈ table, n.check = r.check ∧ r.transitionKey < n.transitionKey := by
  simp [hasNewer, HistoryRow.newerThan]

theorem not_hasNewer_iff :
    table.hasNewer r = false ↔
      ∀ n ∈ table, n.check = r.check → n.transitionKey ≤ r.transitionKey := by
  simp [hasNewer, HistoryRow.newerThan]

theorem mem_openRows :
    r ∈ table.openRows ↔ r ∈ table ∧ r.resolved = false ∧ table.hasNewer r = false := by
  simp [openRows]

theorem mem_pruneOld {now : UnixMs} {secs : Int} :
    r ∈ table.pruneOld now secs ↔
      r ∈ table ∧ (r.recordedAt < now - secs * 1000 →
        r.resolved = false ∧ table.hasNewer r = false) := by
  rw [pruneOld, mem_filter, Bool.not_eq_true', Bool.and_eq_false_iff, Bool.or_eq_false_iff,
    decide_eq_false_iff_not, ← imp_iff_not_or]

/-- Above every row of a check there is a latest one. -/
theorem exists_latest (hr : r ∈ table) :
    ∃ m ∈ table, m.check = r.check ∧ r.transitionKey ≤ m.transitionKey ∧
      table.hasNewer m = false := by
  have hmem : r ∈ (table.filter fun n => n.check = r.check).toFinset := by simpa using hr
  obtain ⟨m, hm, hmax⟩ := Finset.exists_max_image _ HistoryRow.transitionKey ⟨r, hmem⟩
  obtain ⟨hm, hcheck⟩ : m ∈ table ∧ m.check = r.check := by simpa using hm
  refine ⟨m, hm, hcheck, hmax r hmem, not_hasNewer_iff.2 fun n hn hsame => hmax n ?_⟩
  simpa [hn] using hsame.trans hcheck

/-! ### A table and its pruned copy -/

/-- A Fire was written after a Resolve of its check that is later than it. -/
structure Overtaken (earlier later : HistoryRow) : Prop where
  resolve : earlier.resolved = true
  fire : later.resolved = false
  check : earlier.check = later.check
  newer : later.transitionKey < earlier.transitionKey

instance (earlier later : HistoryRow) : Decidable (Overtaken earlier later) :=
  decidable_of_iff (earlier.resolved = true ∧ later.resolved = false ∧ earlier.check = later.check ∧
    later.transitionKey < earlier.transitionKey)
    ⟨fun h => ⟨h.1, h.2.1, h.2.2.1, h.2.2.2⟩, fun h => ⟨h.resolve, h.fire, h.check, h.newer⟩⟩

/-- What holds of a row and one written after it. -/
structure InOrder (earlier later : HistoryRow) : Prop where
  recorded : earlier.recordedAt ≤ later.recordedAt
  not_overtaken : ¬ Overtaken earlier later

/-- Of two rows, one was written before the other. -/
theorem inOrder_or (horder : full.Pairwise InOrder) {a b : HistoryRow} (ha : a ∈ full)
    (hb : b ∈ full) (hne : a ≠ b) : InOrder a b ∨ InOrder b a := by
  have hsymm : Std.Symm fun a b => InOrder a b ∨ InOrder b a := ⟨fun _ _ => Or.symm⟩
  have hpair : full.Pairwise fun a b => InOrder a b ∨ InOrder b a := horder.imp .inl
  exact hpair.forall ha hb hne

/-- The second table is the first one after retention passes: a row that is gone was a Resolve or
not the latest of its check, and a Resolve that is gone is later than no Fire that is left. -/
structure PrunedOf (full table : HistoryTable) : Prop where
  subset : ∀ r ∈ table, r ∈ full
  deleted : ∀ r ∈ full, r ∉ table → r.resolved = true ∨ full.hasNewer r = true
  outlived : ∀ m ∈ full, m ∉ table → m.resolved = true → ∀ f ∈ table, f.resolved = false →
    m.check = f.check → m.transitionKey ≤ f.transitionKey

theorem PrunedOf.refl (table : HistoryTable) : PrunedOf table table where
  subset := fun _ hr => hr
  deleted := fun _ hr hnot => absurd hr hnot
  outlived := fun _ hm hnot => absurd hm hnot

/-- The open rows are the same. -/
theorem PrunedOf.mem_openRows (h : PrunedOf full table) :
    r ∈ table.openRows ↔ r ∈ full.openRows := by
  rw [HistoryTable.mem_openRows, HistoryTable.mem_openRows]
  constructor
  · rintro ⟨hr, hfire, hlatest⟩
    refine ⟨h.subset r hr, hfire, ?_⟩
    -- The latest row of the check in the full table is still there, or it is not above this one.
    obtain ⟨m, hm, hcheck, hle, hmax⟩ := exists_latest (h.subset r hr)
    have hmr : m.transitionKey ≤ r.transitionKey := by
      by_cases hleft : m ∈ table
      · exact not_hasNewer_iff.1 hlatest m hleft hcheck
      · have hresolve := (h.deleted m hm hleft).resolve_right (by simp [hmax])
        exact h.outlived m hm hleft hresolve r hr hfire hcheck
    exact not_hasNewer_iff.2 fun n hn hsame =>
      (not_hasNewer_iff.1 hmax n hn (hsame.trans hcheck.symm)).trans hmr
  · rintro ⟨hr, hfire, hlatest⟩
    have hleft : r ∈ table := by
      by_contra hnot
      have := h.deleted r hr hnot
      simp [hfire, hlatest] at this
    exact ⟨hleft, hfire, not_hasNewer_iff.2 fun n hn =>
      not_hasNewer_iff.1 hlatest n (h.subset n hn)⟩

/-- Rows are written to both. -/
theorem PrunedOf.append (h : PrunedOf full table) {new : List HistoryRow}
    (horder : (full ++ new).Pairwise InOrder) : PrunedOf (full ++ new) (table ++ new) where
  subset := by
    intro r hr
    rcases mem_append.1 hr with hr | hr
    · exact mem_append_left new (h.subset r hr)
    · exact mem_append_right full hr
  deleted := by
    intro r hr hnot
    obtain ⟨hleft, hnew⟩ := not_or.1 (mt mem_append.2 hnot)
    have hfull := (mem_append.1 hr).resolve_right hnew
    refine (h.deleted r hfull hleft).imp_right fun hnewer => ?_
    obtain ⟨n, hn, hrest⟩ := hasNewer_iff.1 hnewer
    exact hasNewer_iff.2 ⟨n, mem_append_left new hn, hrest⟩
  outlived := by
    intro m hm hnot hresolve f hf hfire hcheck
    obtain ⟨hleft, hnew⟩ := not_or.1 (mt mem_append.2 hnot)
    have hfull := (mem_append.1 hm).resolve_right hnew
    rcases mem_append.1 hf with hf | hf
    · exact h.outlived m hfull hleft hresolve f hf hfire hcheck
    · have hpair := (pairwise_append.1 horder).2.2 m hfull f hf
      by_contra hlt
      exact hpair.not_overtaken ⟨hresolve, hfire, hcheck, not_le.1 hlt⟩

/-- One of them is pruned once more. -/
theorem PrunedOf.pruneOld (h : PrunedOf full table) (horder : full.Pairwise InOrder)
    (now : UnixMs) (secs : Int) : PrunedOf full (table.pruneOld now secs) where
  subset := fun r hr => h.subset r (mem_pruneOld.1 hr).1
  deleted := by
    intro r hr hnot
    by_cases hleft : r ∈ table
    · by_contra hkept
      push Not at hkept
      refine hnot (mem_pruneOld.2 ⟨hleft, fun _ => ⟨by simpa using hkept.1, ?_⟩⟩)
      exact not_hasNewer_iff.2 fun n hn =>
        not_hasNewer_iff.1 (by simpa using hkept.2) n (h.subset n hn)
    · exact h.deleted r hr hleft
  outlived := by
    intro m hm hnot hresolve f hf hfire hcheck
    obtain ⟨hf, hkept⟩ := mem_pruneOld.1 hf
    by_cases hleft : m ∈ table
    · by_contra hlt
      have hnewer := not_le.1 hlt
      -- The Resolve is old enough to go. It is later than the Fire, so the Fire is not.
      have hold : m.recordedAt < now - secs * 1000 := by
        by_contra hrecent
        exact hnot (mem_pruneOld.2 ⟨hleft, fun h => absurd h hrecent⟩)
      have hrecent : ¬ f.recordedAt < now - secs * 1000 := by
        intro hf'
        have hlatest := not_hasNewer_iff.1 (hkept hf').2 m hleft hcheck
        exact absurd hnewer (not_lt.2 hlatest)
      have hne : m ≠ f := by
        rintro rfl
        exact lt_irrefl _ hnewer
      rcases inOrder_or horder (h.subset m hleft) (h.subset f hf) hne with hpair | hpair
      · exact hpair.not_overtaken ⟨hresolve, hfire, hcheck, hnewer⟩
      · exact hrecent (lt_of_le_of_lt hpair.recorded hold)
    · exact h.outlived m hm hleft hresolve f hf hfire hcheck

end HistoryTable

namespace HistoryWriter

open HistoryTable (Overtaken InOrder PrunedOf)

variable {cap : Nat}

/-! ### Runs of the writer -/

/-- The rows a step writes. -/
def written (w : HistoryWriter) : Op → List HistoryRow
  | .recordInline now => w.inline.toList.map (·.row now)
  | .flushHistory now => w.batch.map (·.row now)
  | .enqueueHistory _ | .receive => []

theorem step_table (w : HistoryWriter) (op : Op) :
    (w.step cap op).table = w.table ++ w.written op := by
  cases op with
  | enqueueHistory record =>
    rw [step, written]
    split
    · simp
    · split <;> simp
  | recordInline now =>
    rw [step, written]
    split <;> simp_all
  | receive =>
    rw [step, written]
    split
    · split <;> simp
    · simp
  | flushHistory now => rfl

variable {u w : HistoryWriter}

theorem mem_written {op : Op} {r : HistoryRow} (h : r ∈ w.written op) :
    op.writesAt = some r.recordedAt := by
  cases op with
  | enqueueHistory _ | receive => simp [written] at h
  | recordInline now | flushHistory now =>
    obtain ⟨record, -, rfl⟩ := mem_map.1 h
    rfl

/-- The clock that stamps the rows does not go back. -/
def ClockMonotone (ops : List Op) : Prop := (ops.filterMap Op.writesAt).Pairwise (· ≤ ·)

instance (ops : List Op) : Decidable (ClockMonotone ops) :=
  inferInstanceAs (Decidable (List.Pairwise _ _))

/-- So the rows are in the order of their stamps, and each stamp is that of a step. -/
theorem run_recorded {ops : List Op} (hclock : ClockMonotone ops) :
    (run cap ops).table.Pairwise (fun a b => a.recordedAt ≤ b.recordedAt) ∧
      ∀ r ∈ (run cap ops).table, r.recordedAt ∈ ops.filterMap Op.writesAt := by
  induction ops using reverseRecOn with
  | nil => simp [run, empty]
  | append_singleton before op ih =>
    rw [ClockMonotone, filterMap_append, pairwise_append] at hclock
    obtain ⟨hsorted, hstamps⟩ := ih hclock.1
    have hrun : run cap (before ++ [op]) = (run cap before).step cap op := foldl_concat ..
    have hnew : ∀ r ∈ (run cap before).written op, r.recordedAt ∈ [op].filterMap Op.writesAt := by
      intro r hr
      simp [mem_written hr]
    rw [hrun, step_table, filterMap_append]
    refine ⟨pairwise_append.2 ⟨hsorted, ?_, fun a ha b hb =>
      hclock.2.2 _ (hstamps a ha) _ (hnew b hb)⟩, fun r hr => ?_⟩
    · refine pairwise_of_forall_mem_list fun a ha b hb => ?_
      have := (mem_written ha).symm.trans (mem_written hb)
      exact (Option.some.inj this).le
    · rcases mem_append.1 hr with hr | hr
      · exact mem_append_left _ (hstamps r hr)
      · exact mem_append_right _ (hnew r hr)

/-! ### Runs with retention passes -/

/-- Two writers that differ in their tables alone, of which one was pruned. -/
structure Alike (u w : HistoryWriter) : Prop where
  queue : u.queue = w.queue
  inline : u.inline = w.inline
  batch : u.batch = w.batch
  table : PrunedOf u.table w.table

theorem Alike.written (h : Alike u w) (op : Op) : u.written op = w.written op := by
  cases op <;> simp only [HistoryWriter.written, h.inline, h.batch]

theorem Alike.step (h : Alike u w) (op : Op) (horder : (u.step cap op).table.Pairwise InOrder) :
    Alike (u.step cap op) (w.step cap op) := by
  have htable : PrunedOf (u.step cap op).table (w.step cap op).table := by
    rw [step_table] at horder
    rw [step_table, step_table, ← h.written op]
    exact h.table.append horder
  obtain ⟨queue', inline', batch', table'⟩ := w
  obtain ⟨rfl, rfl, rfl, -⟩ := h
  refine ⟨?_, ?_, ?_, htable⟩ <;> cases op <;> simp only [HistoryWriter.step] <;> grind

/-- A run with retention passes beside the run without them. -/
theorem alike_runPruning {ops : List HistoryOp}
    (horder : (run cap (ops.filterMap write?)).table.Pairwise InOrder) :
    Alike (run cap (ops.filterMap write?)) (runPruning cap ops) := by
  induction ops using reverseRecOn with
  | nil => exact ⟨rfl, rfl, rfl, .refl _⟩
  | append_singleton before op ih =>
    have hrun : runPruning cap (before ++ [op]) = (runPruning cap before).stepPruning cap op :=
      foldl_concat ..
    rw [hrun]
    cases op with
    | write op =>
      have hfull : run cap ((before ++ [write op]).filterMap write?)
          = (run cap (before.filterMap write?)).step cap op := by
        rw [filterMap_append]
        exact foldl_concat ..
      rw [hfull] at horder ⊢
      have hbefore := horder
      rw [step_table] at hbefore
      exact (ih (pairwise_append.1 hbefore).1).step op horder
    | pruneOld now secs =>
      have hfull : (before ++ [pruneOld now secs]).filterMap write?
          = before.filterMap write? := by simp [write?]
      rw [hfull] at horder ⊢
      obtain ⟨hqueue, hinline, hbatch, hpruned⟩ := ih horder
      exact ⟨hqueue, hinline, hbatch, hpruned.pruneOld horder now secs⟩

/-- Retention passes at any times do not change what the two reads of a restart return, if no Fire
is written after a Resolve of its check that is later than it. -/
theorem openAlerts_pruned (cap : Nat) (ops : List HistoryOp)
    (hclock : ClockMonotone (ops.filterMap write?))
    (horder : (run cap (ops.filterMap write?)).table.Pairwise fun a b => ¬ Overtaken a b)
    (inventory : NodeId → Bool) (r : HistoryRow) :
    (r ∈ (runPruning cap ops).table.openAlerts inventory ↔
      r ∈ (run cap (ops.filterMap write?)).table.openAlerts inventory) ∧
    (r ∈ (runPruning cap ops).table.openAlertsOfDeletedNodes inventory ↔
      r ∈ (run cap (ops.filterMap write?)).table.openAlertsOfDeletedNodes inventory) := by
  have hboth : (run cap (ops.filterMap write?)).table.Pairwise InOrder :=
    ((run_recorded hclock).1.and horder).imp fun h => ⟨h.1, h.2⟩
  have hrows := (alike_runPruning hboth).table.mem_openRows (r := r)
  constructor
  · rw [HistoryTable.openAlerts, HistoryTable.openAlerts, mem_filter, mem_filter, hrows]
  · rw [HistoryTable.openAlertsOfDeletedNodes, HistoryTable.openAlertsOfDeletedNodes,
      mem_filter, mem_filter, hrows]

/-! ### Two runs -/

/-- The outage of node 1 at a time. -/
def outageAt (t : UnixMs) : Alert where
  subject := .node 1
  check := livenessCheck 1
  severity := .critical
  state := .unreachable
  atUnixMs := t
  rootCause := none
  flapping := false
  metric := .liveness
  breach := none
  ifindex := none
  row := none
  rowName := none
  notifyHeldUntil := none

/-- An outage that is over is pruned, and the next one is open. -/
def prunedOutageOps : List HistoryOp :=
  [.write (.enqueueHistory ⟨1, outageAt 1000, false⟩),
    .write (.enqueueHistory ⟨2, outageAt 1000, true⟩), .write .receive, .write .receive,
    .write (.flushHistory 2000), .pruneOld 9000 2,
    .write (.enqueueHistory ⟨3, outageAt 9000, false⟩), .write .receive,
    .write (.flushHistory 9001)]

theorem openAlerts_pruned_next_outage :
    HistoryRow.ofAlert 3 9001 (outageAt 9000) false
      ∈ (runPruning 2 prunedOutageOps).table.openAlerts fun _ => true :=
  (openAlerts_pruned 2 prunedOutageOps (by decide +kernel) (by decide +kernel) _ _).1.2
    (by decide +kernel)

/-- The channel has room for one record, so the Resolve of the outage is written by the loop, and
its Fire later by the task. A retention pass removes the Resolve alone. -/
def overtakenOutageOps : List HistoryOp :=
  [.write (.enqueueHistory ⟨1, outageAt 1000, false⟩),
    .write (.enqueueHistory ⟨2, outageAt 1000, true⟩), .write (.recordInline 2000),
    .write .receive, .write (.flushHistory 4000), .pruneOld 5000 2]

/-- The outage is over, and after the pass it is open. -/
theorem pruned_resolve_reopens :
    ClockMonotone (overtakenOutageOps.filterMap write?) ∧
    (run 1 (overtakenOutageOps.filterMap write?)).table.openRows = [] ∧
    (runPruning 1 overtakenOutageOps).table.openRows.map (fun r => (r.check, r.atUnixMs))
      = [(livenessCheck 1, 1000)] :=
  ⟨by decide +kernel, by decide +kernel, by decide +kernel⟩

end HistoryWriter

end Yagra
