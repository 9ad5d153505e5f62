import Yagra.History.Timeline
import Yagra.Lib.Emit
import Yagra.Proofs.Retention

/-!
# `Yagra.Proofs.Availability`: what the availability graph makes of the rows

The transitions of a check are handed to the writer one after the other, a Fire and its Resolve in
turn. `downIntervals_exact` is about the rows once everything is written: the graph shows one
interval for each Fire, from the time of the alert to the time at which its own Resolve was
recorded. For a period that begins later, it shows those that had not ended before.

The graph pairs the rows by the order in which they were recorded, a Fire before a Resolve of the
same moment. So the steps have to keep that order the order of the transitions (`KeepsPace`):

- the loop writes a row itself only when no other one of the check waits in the channel or in the
  batch, which it would overtake;
- a Fire is not recorded at the same moment as a Resolve before it.

`overtaken_fire_stays_open` has a run against each of them. In the first the node is shown down
until now although it has recovered. In the second an outage is missing.
-/

set_option autoImplicit false

namespace Yagra

open HistoryTable List HistoryRow
open Yagra.Lib (Meets)

/-! ### Answers of an ordered read -/

section Answers
variable {α κ : Type} [LinearOrder κ] {key : α → κ} {limit : Nat} {rows answer : List α}

/-- A read of rows with different keys has one answer. -/
theorem Answers.eq_take (h : Answers key limit rows answer)
    (hrows : rows.Pairwise fun a b => key a < key b) : answer = rows.take limit := by
  obtain ⟨ordered, hperm, hsorted, rfl⟩ := h
  have hinj : ∀ a ∈ rows, ∀ b ∈ rows, key a = key b → a = b := by
    intro a ha b hb hkey
    by_contra hne
    have hsymm : Std.Symm fun a b => key a ≠ key b := ⟨fun _ _ => Ne.symm⟩
    have hpair : rows.Pairwise fun a b => key a ≠ key b := hrows.imp ne_of_lt
    exact hpair.forall ha hb hne hkey
  rw [hperm.eq_of_pairwise (fun a b ha hb hab hba =>
    hinj a (hperm.mem_iff.1 ha) b hb (le_antisymm hab hba)) hsorted (hrows.imp le_of_lt)]

end Answers

/-! ### Rows that alternate -/

/-- Resolves and Fires in turn. `isOpen` says which of them comes first. -/
def Alternating : Bool → List Bool → Prop
  | _, [] => True
  | isOpen, resolved :: rest => resolved = isOpen ∧ Alternating (!isOpen) rest

instance Alternating.decidable : ∀ (isOpen : Bool) (l : List Bool), Decidable (Alternating isOpen l)
  | _, [] => isTrue trivial
  | isOpen, resolved :: rest =>
    have := Alternating.decidable (!isOpen) rest
    inferInstanceAs (Decidable (resolved = isOpen ∧ Alternating (!isOpen) rest))

/-- The intervals of rows that alternate, from a Fire on. -/
def rowOutages (nowMs : UnixMs) : List HistoryRow → List (UnixMs × UnixMs)
  | [] => []
  | [fire] => [(fire.atUnixMs, nowMs)]
  | fire :: resolve :: rest => (fire.atUnixMs, resolve.recordedAt) :: rowOutages nowMs rest

/-- What holds of a row of a check and one written after it. -/
structure Spaced (a b : HistoryRow) : Prop where
  recorded : a.recordedAt ≤ b.recordedAt
  apart : a.resolved = true → b.resolved = false → a.recordedAt < b.recordedAt

theorem recordedKey_lt_iff {a b : HistoryRow} :
    a.recordedKey < b.recordedKey ↔ a.recordedAt < b.recordedAt ∨
      (a.recordedAt = b.recordedAt ∧ a.resolved = false ∧ b.resolved = true) := by
  rw [recordedKey, recordedKey, Prod.Lex.toLex_lt_toLex, Bool.lt_iff]

/-- Such rows are recorded in the order they are read in. -/
theorem recordedKey_lt_of_spaced {isOpen : Bool} {l : List HistoryRow}
    (halt : Alternating isOpen (l.map (·.resolved))) (hspaced : l.Pairwise Spaced) :
    l.Pairwise fun a b => a.recordedKey < b.recordedKey := by
  induction l generalizing isOpen with
  | nil => exact .nil
  | cons a rest ih =>
    obtain ⟨ha, hrest⟩ := halt
    obtain ⟨hfirst, hspaced⟩ := pairwise_cons.1 hspaced
    refine pairwise_cons.2 ⟨fun b hb => ?_, ih hrest hspaced⟩
    have hab := hfirst b hb
    rw [recordedKey_lt_iff]
    rcases eq_or_ne a.resolved b.resolved with hsame | hdiff
    · -- A row of the other kind stands between them.
      cases rest with
      | nil => simp at hb
      | cons m rest =>
        have hm : m.resolved = !isOpen := hrest.1
        have ham := hfirst m mem_cons_self
        have hmb : b ∈ rest := by
          rcases mem_cons.1 hb with rfl | hb
          · simp [ha, hm] at hsame
          · exact hb
        have hmb := (pairwise_cons.1 hspaced).1 b hmb
        left
        cases isOpen with
        | true => exact lt_of_lt_of_le (ham.apart ha hm) hmb.recorded
        | false => exact lt_of_le_of_lt ham.recorded (hmb.apart hm (hsame ▸ ha))
    · cases hares : a.resolved with
      | true =>
        have hbres : b.resolved = false := by simpa [hares] using hdiff.symm
        exact .inl (hab.apart hares hbres)
      | false =>
        have hbres : b.resolved = true := by simpa [hares] using hdiff.symm
        exact (lt_or_eq_of_le hab.recorded).imp_right fun heq => ⟨heq, rfl, hbres⟩

variable {fromMs nowMs : UnixMs}

/-- The intervals of rows that alternate. -/
theorem downLoop_alternating {first : Bool} :
    ∀ l : List HistoryRow, Alternating false (l.map (·.resolved)) →
      downLoop fromMs nowMs first none (l.map (·.toLivenessRow)) = rowOutages nowMs l
  | [], _ => rfl
  | [fire], h => by
    have hfire : fire.resolved = false := h.1
    simp [downLoop, downRow, toLivenessRow, hfire, rowOutages]
  | fire :: resolve :: rest, h => by
    have hfire : fire.resolved = false := h.1
    have hresolve : resolve.resolved = true := h.2.1
    have hrest : downLoop fromMs nowMs false none (rest.map (·.toLivenessRow))
        = rowOutages nowMs rest := downLoop_alternating rest h.2.2
    simp only [map_cons, downLoop, downRow, toLivenessRow, hfire, hresolve,
      Bool.false_eq_true, if_false, if_true, nil_append, singleton_append, rowOutages]
    rw [← hrest]
    rfl

/-- The end of an interval is the time of a row, or now. -/
theorem mem_rowOutages {iv : UnixMs × UnixMs} :
    ∀ l : List HistoryRow, iv ∈ rowOutages nowMs l → iv.2 = nowMs ∨ ∃ r ∈ l, iv.2 = r.recordedAt
  | [], h => by simp [rowOutages] at h
  | [fire], h => by
    obtain rfl := mem_singleton.1 h
    exact .inl rfl
  | fire :: resolve :: rest, h => by
    rcases mem_cons.1 h with rfl | h
    · exact .inr ⟨resolve, by simp, rfl⟩
    · refine (mem_rowOutages rest h).imp_right fun hmem => ?_
      obtain ⟨r, hr, heq⟩ := hmem
      exact ⟨r, by simp [hr], heq⟩

theorem filter_rowOutages_self (hnow : fromMs ≤ nowMs) {l : List HistoryRow}
    (hl : ∀ r ∈ l, fromMs ≤ r.recordedAt) :
    (rowOutages nowMs l).filter (fun iv => decide (fromMs ≤ iv.2)) = rowOutages nowMs l := by
  refine filter_eq_self.2 fun iv hiv => decide_eq_true ?_
  rcases mem_rowOutages l hiv with heq | ⟨r, hr, heq⟩
  · rw [heq]
    exact hnow
  · rw [heq]
    exact hl r hr

/-- The last row before the period, and those in it. -/
def readRows (fromMs : UnixMs) (l : List HistoryRow) : List HistoryRow :=
  (l.filter fun r => decide (r.recordedAt < fromMs)).getLast?.toList
    ++ l.filter fun r => decide (fromMs ≤ r.recordedAt)

/-- The intervals of a period are those that do not end before it. -/
theorem downIntervals_readRows (hnow : fromMs ≤ nowMs) :
    ∀ l : List HistoryRow, Alternating false (l.map (·.resolved)) →
      l.Pairwise (fun a b => a.recordedAt ≤ b.recordedAt) →
      downIntervals ((readRows fromMs l).map (·.toLivenessRow)) fromMs nowMs
        = (rowOutages nowMs l).filter fun iv => decide (fromMs ≤ iv.2)
  | [], _, _ => rfl
  | [fire], h, _ => by
    have hread : readRows fromMs [fire] = [fire] := by
      by_cases hbefore : fire.recordedAt < fromMs
      · simp [readRows, hbefore]
      · simp [readRows, hbefore, not_lt.1 hbefore]
    rw [hread, downIntervals, downLoop_alternating _ h]
    simp [rowOutages, hnow]
  | fire :: resolve :: rest, h, hsorted => by
    obtain ⟨hfirst, hsorted'⟩ := pairwise_cons.1 hsorted
    obtain ⟨hsecond, hrest⟩ := pairwise_cons.1 hsorted'
    have hfr : fire.recordedAt ≤ resolve.recordedAt := hfirst resolve mem_cons_self
    by_cases hbefore : resolve.recordedAt < fromMs
    · -- The first outage ended before the period.
      have hfire : fire.recordedAt < fromMs := lt_of_le_of_lt hfr hbefore
      have hdrop : (rowOutages nowMs (fire :: resolve :: rest)).filter
            (fun iv => decide (fromMs ≤ iv.2))
          = (rowOutages nowMs rest).filter fun iv => decide (fromMs ≤ iv.2) := by
        simp [rowOutages, hbefore]
      rw [hdrop]
      cases hearlier : rest.filter fun r => decide (r.recordedAt < fromMs) with
      | nil =>
        have hin : ∀ r ∈ rest, fromMs ≤ r.recordedAt := by
          intro r hr
          simpa using filter_eq_nil_iff.1 hearlier r hr
        have hread : readRows fromMs (fire :: resolve :: rest) = resolve :: rest := by
          have hall : rest.filter (fun r => decide (fromMs ≤ r.recordedAt)) = rest :=
            filter_eq_self.2 fun r hr => decide_eq_true (hin r hr)
          simp [readRows, hfire, hbefore, hearlier, hall]
        have hresolve : resolve.resolved = true := h.2.1
        rw [hread, filter_rowOutages_self hnow hin, downIntervals, map_cons, downLoop]
        simp only [downRow, toLivenessRow, hresolve, if_true, not_lt.2 hbefore.le,
          and_false, if_false, nil_append]
        exact downLoop_alternating rest h.2.2
      | cons a more =>
        have hread : readRows fromMs (fire :: resolve :: rest) = readRows fromMs rest := by
          simp [readRows, hfire, hbefore, hearlier, getLast?_cons]
        rw [hread]
        exact downIntervals_readRows hnow rest h.2.2 hrest
    · -- Only its Fire may come before the period.
      have hin : ∀ r ∈ rest, fromMs ≤ r.recordedAt := fun r hr =>
        le_trans (not_lt.1 hbefore) (hsecond r hr)
      have hread : readRows fromMs (fire :: resolve :: rest) = fire :: resolve :: rest := by
        have hall : rest.filter (fun r => decide (fromMs ≤ r.recordedAt)) = rest :=
          filter_eq_self.2 fun r hr => decide_eq_true (hin r hr)
        have hnone : rest.filter (fun r => decide (r.recordedAt < fromMs)) = [] :=
          filter_eq_nil_iff.2 fun r hr => by simpa using hin r hr
        by_cases hfire : fire.recordedAt < fromMs
        · simp [readRows, hfire, hbefore, hall, hnone, not_lt.1 hbefore]
        · simp [readRows, hfire, hbefore, hall, hnone, not_lt.1 hbefore, not_lt.1 hfire]
      rw [hread, downIntervals, downLoop_alternating _ h]
      simp only [rowOutages, filter_cons, decide_eq_true (not_lt.1 hbefore), if_true]
      rw [filter_rowOutages_self hnow hin]

/-- What `liveness_rows` returns of rows that alternate. -/
theorem HistoryTable.LivenessRows.eq_readRows {table : HistoryTable} {c : CheckId} {limit : Nat}
    {answer : List LivenessRow} (h : table.LivenessRows c fromMs limit answer)
    (hlimit : (table.ofCheck c).length ≤ limit)
    (hkeys : (table.ofCheck c).Pairwise fun a b => a.recordedKey < b.recordedKey) :
    answer = (readRows fromMs (table.ofCheck c)).map (·.toLivenessRow) := by
  obtain ⟨before, inside, rfl, hbefore, hinside⟩ := h
  have hin : inside = (table.ofCheck c).filter fun r => decide (fromMs ≤ r.recordedAt) := by
    rw [hinside.eq_take (hkeys.filter _), take_of_length_le]
    exact (length_filter_le _ _).trans (hlimit.trans (le_max_left limit 1))
  have hlast : before
      = ((table.ofCheck c).filter fun r => decide (r.recordedAt < fromMs)).getLast?.toList := by
    obtain ⟨ordered, hperm, hsorted, rfl⟩ := hbefore
    have hreverse : Answers (fun r : HistoryRow => OrderDual.toDual r.recordedKey) 1
        (((table.ofCheck c).filter fun r => decide (r.recordedAt < fromMs)).reverse)
        (ordered.take 1) := ⟨ordered, hperm.trans (reverse_perm _).symm, hsorted, rfl⟩
    rw [hreverse.eq_take (pairwise_reverse.2 (hkeys.filter _)), take_one,
      head?_reverse]
  rw [hin, hlast, readRows]

/-! ### The order of the rows -/

/-- The record is of this check of a node. -/
def HistoryRecord.isOf (c : CheckId) (record : HistoryRecord) : Bool :=
  decide (record.alert.check = c) && record.alert.subject.asNode.isSome

/-- What tells the transition of a row, whenever it was recorded. -/
def HistoryRow.mark (r : HistoryRow) : Uuid × UnixMs × Bool := (r.id, r.atUnixMs, r.resolved)

/-- The same for a record. -/
def HistoryRecord.mark (record : HistoryRecord) : Uuid × UnixMs × Bool :=
  (record.id, record.alert.atUnixMs, record.resolved)

theorem ofCheck_append (table new : List HistoryRow) (c : CheckId) :
    ofCheck (table ++ new) c = ofCheck table c ++ ofCheck new c := filter_append ..

theorem ofCheck_map_row (c : CheckId) (now : UnixMs) (records : List HistoryRecord) :
    ofCheck (records.map (·.row now)) c
      = (records.filter (·.isOf c)).map (·.row now) := filter_map ..

namespace HistoryWriter

variable {cap : Nat} {c : CheckId}

/-- The transitions of a check that are handed over, in their order. -/
def handedOver (ops : List Op) (c : CheckId) : List HistoryRecord :=
  (ops.filterMap Op.handsOver).filter (·.isOf c)

theorem handedOver_concat (ops : List Op) (op : Op) (c : CheckId) :
    handedOver (ops ++ [op]) c = handedOver ops c ++ op.handsOver.toList.filter (·.isOf c) := by
  cases hop : op.handsOver <;> simp [handedOver, hop]

variable (w : HistoryWriter)

/-- The loop hands nothing over while it writes a row itself. -/
def Possible : Op → Prop
  | .enqueueHistory _ => w.inline = none
  | .recordInline _ | .receive | .flushHistory _ => True

instance (w : HistoryWriter) (op : Op) : Decidable (w.Possible op) := by
  cases op <;> unfold Possible <;> infer_instance

/-- The records of the channel and of the batch, oldest first. -/
def waiting : List HistoryRecord := w.batch ++ w.queue

/-- No Fire of the check among these records comes after a Resolve that is recorded at the same
moment. -/
def Apart (c : CheckId) (table : HistoryTable) (now : UnixMs) (records : List HistoryRecord) :
    Prop :=
  (records.filter (·.isOf c)).Pairwise (fun a b => a.resolved = true → b.resolved = true) ∧
    ∀ f ∈ records.filter (·.isOf c), f.resolved = false →
      ∀ r ∈ table.ofCheck c, r.resolved = true → r.recordedAt < now

instance (c : CheckId) (table : HistoryTable) (now : UnixMs) (records : List HistoryRecord) :
    Decidable (Apart c table now records) := inferInstanceAs (Decidable (_ ∧ _))

/-- What a step has to meet for the rows of the check to be recorded in the order of its
transitions. -/
def KeepsPace (cap : Nat) (c : CheckId) (w : HistoryWriter) : Op → Prop
  | .enqueueHistory record =>
    record.isOf c = true → cap ≤ w.queue.length → w.waiting.filter (·.isOf c) = []
  | .recordInline now => Apart c w.table now w.inline.toList
  | .flushHistory now => Apart c w.table now w.batch
  | .receive => True

instance (w : HistoryWriter) (op : Op) : Decidable (KeepsPace cap c w op) := by
  cases op <;> unfold KeepsPace <;> infer_instance

/-- The transitions handed over are the rows of the check and what is on its way, in this order. -/
structure InTransit (c : CheckId) (handed : List HistoryRecord) (w : HistoryWriter) : Prop where
  marks : handed.map (·.mark) = (w.table.ofCheck c).map (·.mark)
    ++ ((w.waiting ++ w.inline.toList).filter (·.isOf c)).map (·.mark)
  alone : ∀ record, w.inline = some record → record.isOf c = true → w.waiting.filter (·.isOf c) = []
  apart : (w.table.ofCheck c).Pairwise fun a b =>
    a.resolved = true → b.resolved = false → a.recordedAt < b.recordedAt

/-- The rows of some records follow those of the table. -/
theorem apart_append {table : HistoryTable} {now : UnixMs} {records : List HistoryRecord}
    (htable : (table.ofCheck c).Pairwise fun a b =>
      a.resolved = true → b.resolved = false → a.recordedAt < b.recordedAt)
    (h : Apart c table now records) :
    (ofCheck (table ++ records.map (·.row now)) c).Pairwise fun a b =>
      a.resolved = true → b.resolved = false → a.recordedAt < b.recordedAt := by
  rw [ofCheck_append, ofCheck_map_row]
  refine pairwise_append.2 ⟨htable, ?_, ?_⟩
  · refine pairwise_map.2 (h.1.imp fun hab ha hb => ?_)
    simp_all [HistoryRecord.row, ofAlert]
  · intro a ha b hb hres hfire
    obtain ⟨f, hf, rfl⟩ := mem_map.1 hb
    exact h.2 f hf hfire a ha hres

theorem InTransit.step {handed : List HistoryRecord} {w : HistoryWriter}
    (h : InTransit c handed w) {op : Op} (hpossible : w.Possible op)
    (hpace : KeepsPace cap c w op) :
    InTransit c (handed ++ op.handsOver.toList.filter (·.isOf c)) (w.step cap op) := by
  obtain ⟨hmarks, halone, hapart⟩ := h
  cases op with
  | enqueueHistory record =>
    have hinline : w.inline = none := hpossible
    have hsame : (handed ++ [record].filter (·.isOf c)).map (·.mark)
        = (w.table.ofCheck c).map (·.mark)
          ++ ((w.waiting ++ [record]).filter (·.isOf c)).map (·.mark) := by
      rw [map_append, hmarks, hinline]
      simp
    by_cases hfull : w.queue.length < cap
    · have hstep : w.step cap (.enqueueHistory record)
          = { w with queue := w.queue ++ [record] } := by
        simp [HistoryWriter.step, hinline, hfull]
      rw [hstep]
      refine ⟨?_, fun r hr => by simp [hinline] at hr, hapart⟩
      show (handed ++ [record].filter (·.isOf c)).map (·.mark) = _
      rw [hsame]
      simp [waiting, hinline]
    · have hstep : w.step cap (.enqueueHistory record) = { w with inline := some record } := by
        simp [HistoryWriter.step, hinline, hfull]
      rw [hstep]
      refine ⟨hsame, fun r hr hof => ?_, hapart⟩
      cases hr
      exact hpace hof (not_lt.1 hfull)
  | recordInline now =>
    show InTransit c (handed ++ []) _
    rw [append_nil]
    cases hinline : w.inline with
    | none =>
      have hstep : w.step cap (.recordInline now) = w := by simp [HistoryWriter.step, hinline]
      rw [hstep]
      exact ⟨hmarks, halone, hapart⟩
    | some record =>
      have hstep : w.step cap (.recordInline now)
          = { w with inline := none, table := w.table ++ [record.row now] } := by
        simp [HistoryWriter.step, hinline]
      rw [hstep]
      have hpace : Apart c w.table now [record] := by simpa [KeepsPace, hinline] using hpace
      refine ⟨?_, fun r hr => by simp at hr, apart_append hapart hpace⟩
      have hrow := ofCheck_map_row c now [record]
      rw [map_singleton] at hrow
      show _ = (ofCheck (w.table ++ [record.row now]) c).map (·.mark)
        ++ ((w.waiting ++ ([] : List HistoryRecord)).filter (·.isOf c)).map (·.mark)
      rw [hmarks, hinline, ofCheck_append, hrow]
      cases hof : record.isOf c with
      | false => simp [hof]
      | true =>
        -- Nothing of the check is waiting, so this row is the next one.
        have hempty := halone record hinline hof
        simp only [Option.toList_some, filter_append, hempty, append_nil,
          nil_append, map_append, map_map, map_nil]
        rfl
  | receive =>
    have hwaiting : (w.step cap .receive).waiting = w.waiting := by
      rw [HistoryWriter.step]
      split
      next hqueue => split <;> simp [waiting, hqueue]
      next => rfl
    have hinline : (w.step cap .receive).inline = w.inline := by
      rw [HistoryWriter.step]
      split
      next => split <;> rfl
      next => rfl
    have htable : (w.step cap .receive).table = w.table := by
      rw [step_table]
      exact append_nil _
    show InTransit c (handed ++ []) _
    rw [append_nil]
    refine ⟨?_, ?_, ?_⟩
    · rw [hwaiting, hinline, htable]
      exact hmarks
    · rw [hwaiting, hinline]
      exact halone
    · rw [htable]
      exact hapart
  | flushHistory now =>
    show InTransit c (handed ++ []) _
    rw [append_nil]
    refine ⟨?_, fun record hinline hof => ?_, apart_append hapart hpace⟩
    · show _ = (ofCheck (w.table ++ w.batch.map (·.row now)) c).map (·.mark)
        ++ ((([] : List HistoryRecord) ++ w.queue ++ w.inline.toList).filter (·.isOf c)).map
          (·.mark)
      rw [hmarks, ofCheck_append, ofCheck_map_row, map_append, map_map]
      simp only [waiting, filter_append, map_append, append_assoc, nil_append]
      rfl
    · have hempty := halone record hinline hof
      rw [waiting, filter_append, append_eq_nil_iff] at hempty
      exact hempty.2

/-- Nothing is on its way. -/
def Drained : Prop := w.queue = [] ∧ w.batch = [] ∧ w.inline = none

instance (w : HistoryWriter) : Decidable w.Drained := inferInstanceAs (Decidable (_ ∧ _ ∧ _))

/-- When the row of a record was written. -/
def recordedAtOf (table : HistoryTable) (c : CheckId) (id : Uuid) : UnixMs :=
  ((table.ofCheck c).find? fun r => decide (r.id = id)).elim 0 (·.recordedAt)

/-- The outages that the transitions of a check are: from each Fire to the moment its Resolve was
recorded. -/
def outages (recordedAt : Uuid → UnixMs) (nowMs : UnixMs) :
    List HistoryRecord → List (UnixMs × UnixMs)
  | [] => []
  | [fire] => [(fire.alert.atUnixMs, nowMs)]
  | fire :: resolve :: rest =>
    (fire.alert.atUnixMs, recordedAt resolve.id) :: outages recordedAt nowMs rest

theorem rowOutages_eq_outages {recordedAt : Uuid → UnixMs} :
    ∀ (rows : List HistoryRow) (records : List HistoryRecord),
      records.map (·.mark) = rows.map (·.mark) → (∀ r ∈ rows, recordedAt r.id = r.recordedAt) →
      rowOutages nowMs rows = outages recordedAt nowMs records
  | [], [], _, _ => rfl
  | [fire], [fire'], hmarks, _ => by
    have hat : fire'.alert.atUnixMs = fire.atUnixMs := congrArg (·.2.1) (cons.inj hmarks).1
    simp [rowOutages, outages, hat]
  | fire :: resolve :: rest, fire' :: resolve' :: rest', hmarks, hrecorded => by
    obtain ⟨hfire, htail⟩ := cons.inj hmarks
    obtain ⟨hresolve, hrest⟩ := cons.inj htail
    have hat : fire'.alert.atUnixMs = fire.atUnixMs := congrArg (·.2.1) hfire
    have hid : resolve'.id = resolve.id := congrArg (·.1) hresolve
    rw [rowOutages, outages, hat, hid, hrecorded resolve (by simp),
      rowOutages_eq_outages rest rest' hrest fun r hr => hrecorded r (by simp [hr])]
  | [], _ :: _, hmarks, _ => by simp at hmarks
  | _ :: _, [], hmarks, _ => by simp at hmarks
  | [_], _ :: _ :: _, hmarks, _ => by simp at hmarks
  | _ :: _ :: _, [_], hmarks, _ => by simp at hmarks

/-- Once everything is written, the graph of a period shows the outages that do not end before it:
one for each Fire, from the time of the alert to the moment at which its own Resolve was recorded.
-/
theorem downIntervals_exact (cap : Nat) (c : CheckId) (ops : List Op)
    (hpossible : Meets Possible (step cap) empty ops) (hclock : ClockMonotone ops)
    (hids : ((handedOver ops c).map (·.id)).Nodup)
    (halternates : Alternating false ((handedOver ops c).map (·.resolved)))
    (hdone : (run cap ops).Drained)
    (hpace : Meets (KeepsPace cap c) (step cap) empty ops)
    (fromMs nowMs : UnixMs) (hnow : fromMs ≤ nowMs)
    (limit : Nat) (hlimit : ((run cap ops).table.ofCheck c).length ≤ limit)
    (rows : List LivenessRow) (hrows : (run cap ops).table.LivenessRows c fromMs limit rows) :
    downIntervals rows fromMs nowMs
      = (outages (recordedAtOf (run cap ops).table c) nowMs (handedOver ops c)).filter
          fun iv => decide (fromMs ≤ iv.2) := by
  have htransit : InTransit c (handedOver ops c) (run cap ops) := by
    refine (hpossible.and hpace).history (I := fun past w => InTransit c (handedOver past c) w) ?_
      ⟨rfl, fun record h => by simp [empty] at h, .nil⟩
    intro past w op hop h
    rw [handedOver_concat]
    exact h.step hop.1 hop.2
  have hmarks : (handedOver ops c).map (·.mark) = ((run cap ops).table.ofCheck c).map (·.mark) := by
    rw [htransit.marks, waiting, hdone.1, hdone.2.1, hdone.2.2]
    simp
  have hresolved : ((run cap ops).table.ofCheck c).map (·.resolved)
      = (handedOver ops c).map (·.resolved) := by
    have := congrArg (List.map fun m => m.2.2) hmarks
    rw [map_map, map_map] at this
    exact this.symm
  have hidsRows : ((run cap ops).table.ofCheck c).map (·.id) = (handedOver ops c).map (·.id) := by
    have := congrArg (List.map fun m => m.1) hmarks
    rw [map_map, map_map] at this
    exact this.symm
  rw [← hresolved] at halternates
  have hsorted : ((run cap ops).table.ofCheck c).Pairwise
      fun a b => a.recordedAt ≤ b.recordedAt := (run_recorded hclock).1.filter _
  have hkeys := recordedKey_lt_of_spaced halternates
    ((hsorted.and htransit.apart).imp fun h => ⟨h.1, h.2⟩)
  rw [hrows.eq_readRows hlimit hkeys, downIntervals_readRows hnow _ halternates hsorted,
    rowOutages_eq_outages _ _ hmarks]
  intro r hr
  have hfind : ((run cap ops).table.ofCheck c).find? (fun x => decide (x.id = r.id)) = some r := by
    rw [← List.head?_filter, Lib.filter_key_eq_singleton (hidsRows ▸ hids) hr]
    rfl
  rw [recordedAtOf, hfind]
  rfl

/-! ### Three runs -/

/-- A read of rows that are given in their order. -/
theorem livenessRows_of_sorted {table : HistoryTable} {limit : Nat} {rows : List HistoryRow}
    (hrows : rows.Perm (table.ofCheck c)) (hlimit : rows.length ≤ limit)
    (hin : ∀ r ∈ table.ofCheck c, 0 ≤ r.recordedAt)
    (hsorted : rows.Pairwise fun a b => a.recordedKey ≤ b.recordedKey) :
    table.LivenessRows c 0 limit (rows.map (·.toLivenessRow)) := by
  refine ⟨[], rows, rfl, ⟨[], ?_, .nil, rfl⟩, rows, ?_, hsorted, ?_⟩
  · rw [filter_eq_nil_iff.2 fun r hr => by simpa using hin r hr]
  · rw [filter_eq_self.2 fun r hr => decide_eq_true (hin r hr)]
    exact hrows
  · rw [take_of_length_le (hlimit.trans (le_max_left limit 1))]

/-- Two outages, of which the second is open. The Resolve of the first is written by the loop, when
its Fire is in the table. -/
def twoOutageOps : List Op :=
  [.enqueueHistory ⟨1, outageAt 1000, false⟩, .receive, .flushHistory 2000,
    .enqueueHistory ⟨9, { outageAt 1500 with check := livenessCheck 2 }, false⟩,
    .enqueueHistory ⟨2, outageAt 1000, true⟩, .recordInline 3000, .receive,
    .enqueueHistory ⟨3, outageAt 4000, false⟩, .receive, .flushHistory 5000]

theorem downIntervals_exact_two_outages :
    downIntervals [⟨1000, 2000, false⟩, ⟨1000, 3000, true⟩, ⟨4000, 5000, false⟩] 0 9000
      = (outages (recordedAtOf (run 1 twoOutageOps).table (livenessCheck 1)) 9000
          (handedOver twoOutageOps (livenessCheck 1))).filter fun iv => decide (0 ≤ iv.2) :=
  downIntervals_exact 1 (livenessCheck 1) twoOutageOps (by decide +kernel) (by decide +kernel)
    (by decide +kernel) (by decide +kernel) (by decide +kernel) (by decide +kernel) 0 9000
    (by decide) 3 (by decide +kernel) _
    (livenessRows_of_sorted (.refl ((run 1 twoOutageOps).table.ofCheck (livenessCheck 1)))
      (by decide +kernel) (by decide +kernel) (by decide +kernel))

/-- The Resolve finds the channel full and is written before its own Fire. -/
def overtakingOps : List Op :=
  [.enqueueHistory ⟨1, outageAt 1000, false⟩, .enqueueHistory ⟨2, outageAt 1000, true⟩,
    .recordInline 2000, .receive, .flushHistory 4000]

/-- Two outages are written with one statement. -/
def sameBatchOps : List Op :=
  [.enqueueHistory ⟨1, outageAt 1000, false⟩, .enqueueHistory ⟨2, outageAt 1000, true⟩,
    .enqueueHistory ⟨3, outageAt 3000, false⟩, .enqueueHistory ⟨4, outageAt 3000, true⟩,
    .receive, .receive, .receive, .receive, .flushHistory 5000]

/-- In both runs the node has recovered. In the first it is shown down until now, and in the second
only one of its two outages is shown. -/
theorem overtaken_fire_stays_open :
    (Meets Possible (step 1) empty overtakingOps ∧ ClockMonotone overtakingOps ∧
      (run 1 overtakingOps).Drained ∧
      Alternating false ((handedOver overtakingOps (livenessCheck 1)).map (·.resolved)) ∧
      (run 1 overtakingOps).table.LivenessRows (livenessCheck 1) 0 2
        [⟨1000, 2000, true⟩, ⟨1000, 4000, false⟩] ∧
      downIntervals [⟨1000, 2000, true⟩, ⟨1000, 4000, false⟩] 0 9000 = [(0, 2000), (1000, 9000)]) ∧
    (Meets Possible (step 4) empty sameBatchOps ∧ ClockMonotone sameBatchOps ∧
      (run 4 sameBatchOps).Drained ∧
      Alternating false ((handedOver sameBatchOps (livenessCheck 1)).map (·.resolved)) ∧
      (run 4 sameBatchOps).table.LivenessRows (livenessCheck 1) 0 4
        [⟨1000, 5000, false⟩, ⟨3000, 5000, false⟩, ⟨1000, 5000, true⟩, ⟨3000, 5000, true⟩] ∧
      downIntervals [⟨1000, 5000, false⟩, ⟨3000, 5000, false⟩, ⟨1000, 5000, true⟩,
        ⟨3000, 5000, true⟩] 0 9000 = [(1000, 5000)]) := by
  refine ⟨⟨by decide +kernel, by decide +kernel, by decide +kernel, by decide +kernel, ?_,
    by decide +kernel⟩, by decide +kernel, by decide +kernel, by decide +kernel, by decide +kernel,
    ?_, by decide +kernel⟩
  · exact livenessRows_of_sorted
      (.refl ((run 1 overtakingOps).table.ofCheck (livenessCheck 1))) (by decide +kernel)
      (by decide +kernel) (by decide +kernel)
  · let row (id : Uuid) (t : UnixMs) (resolved : Bool) : HistoryRow :=
      HistoryRecord.row 5000 ⟨id, outageAt t, resolved⟩
    have hperm : [row 1 1000 false, row 3 3000 false, row 2 1000 true, row 4 3000 true].Perm
        ((run 4 sameBatchOps).table.ofCheck (livenessCheck 1)) := by decide +kernel
    exact livenessRows_of_sorted hperm (by decide +kernel) (by decide +kernel) (by decide +kernel)

end HistoryWriter

end Yagra
