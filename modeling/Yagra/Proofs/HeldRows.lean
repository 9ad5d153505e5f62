import Yagra.Proofs.Notifier

/-!
# `Yagra.Proofs.HeldRows`: a turn of the release loop, at one check

`releasePass_view` says what a turn of the release loop does to the view of a check whose alerts
have one key. If the hours of the check's node are closed, nothing. If they are open, every row
of the check is gone afterwards. The calls made are deliveries when an alert of the check is
active and not rolled up, and resolves otherwise; in that case a held end makes at least one.

`Released` is the effect of a part of the loop. Parts are put together by `Released.trans`.
-/

set_option autoImplicit false

namespace Yagra

open NotifyAction List

namespace Notifier

/-- A row held for a check whose alerts have the key. The resolve of a rolled-up alert is not
held. -/
structure RowFor (key : DedupKey) (row : HeldRow) : Prop where
  key : row.alert.dedupKey = key
  own : row.event = .resolve → row.alert.rootCause = none

/-- The call a row of the check makes, by whether the alert is active and not rolled up. -/
def callFor (key : DedupKey) (live : Bool) : ChannelCall :=
  if live then .deliver key else .resolve key

/-- The effect of going over some rows: those of open nodes are forgotten, and the calls about
the check with the key are all of one kind. -/
structure Released (ch : Uuid) (key : DedupKey) (live : Bool) (now : UnixMs) (l : List HeldRow)
    (n n' : Notifier CallLog) : Prop where
  keeps : KeepsHours ch n'
  hours : n'.hours = n.hours
  rows : n'.heldRows = n.heldRows.filter fun r =>
    r.id ∉ (l.filter fun row => n.hours.isOpen row.alert.node now).map (·.id)
  calls : ∃ ext, (n'.view ch key.check).calls = (n.view ch key.check).calls ++ ext ∧
    (∀ call ∈ ext, call = callFor key live) ∧
    (ext ≠ [] → ∃ row ∈ l, row.alert.check = key.check ∧
      n.hours.isOpen row.alert.node now = true ∧ (live = true → row.event = .fire)) ∧
    (live = false → ∀ row ∈ l, row.alert.check = key.check →
      n.hours.isOpen row.alert.node now = true → row.event ≠ .fire → ext ≠ [])

variable {n n' n'' : Notifier CallLog} {ch : Uuid} {key : DedupKey} {live : Bool} {now : UnixMs}

theorem Released.refl (h : KeepsHours ch n) : Released ch key live now [] n n where
  keeps := h
  hours := rfl
  rows := by simp
  calls := ⟨[], by simp⟩

variable {active : List Alert} {l : List HeldRow}

theorem Released.trans {l' : List HeldRow} (h : Released ch key live now l n n')
    (h' : Released ch key live now l' n' n'') : Released ch key live now (l ++ l') n n'' where
  keeps := h'.keeps
  hours := h'.hours.trans h.hours
  rows := by
    rw [h'.rows, h.rows, h.hours, filter_filter]
    refine filter_congr fun r _ => ?_
    simp only [filter_append, map_append, mem_append, not_or, Bool.decide_and]
    exact Bool.and_comm _ _
  calls := by
    obtain ⟨ext, hcalls, hkind, hopen, hends⟩ := h.calls
    obtain ⟨ext', hcalls', hkind', hopen', hends'⟩ := h'.calls
    rw [h.hours] at hopen' hends'
    refine ⟨ext ++ ext', by rw [hcalls', hcalls, append_assoc], ?_, ?_, ?_⟩
    · intro call hcall
      exact (mem_append.1 hcall).elim (hkind call) (hkind' call)
    · intro hne
      by_cases hext : ext = []
      · obtain ⟨row, hrow, hc⟩ := hopen' (by simpa [hext] using hne)
        exact ⟨row, mem_append_right _ hrow, hc⟩
      · obtain ⟨row, hrow, hc⟩ := hopen hext
        exact ⟨row, mem_append_left _ hrow, hc⟩
    · intro hlive row hrow hc ho he hnil
      obtain ⟨hnil, hnil'⟩ := append_eq_nil_iff.1 hnil
      rcases mem_append.1 hrow with hrow | hrow
      · exact hends hlive row hrow hc ho he hnil
      · exact hends' hlive row hrow hc ho he hnil'

/-! ### One row -/

/-- What sending a row delivers: nothing, its alert as it is now, or the end that was held. -/
theorem sendHeld_cases (active : List Alert) (n : Notifier CallLog)
    (sent : List (Subject × CheckId)) (row : HeldRow) :
    ((sendHeld active (n, sent) row).1 = n ∧
      (row.event = .fire ∨ openAgain active row.alert = true)) ∨
    (∃ a ∈ active, a.check = row.alert.check ∧ a.rootCause = none ∧ row.event = .fire ∧
      (sendHeld active (n, sent) row).1 = n.deliver (.fire a)) ∨
    (openAgain active row.alert = false ∧ ∃ x : NotifyAction, x.alert = row.alert ∧
      (row.event = .resolve ∧ x = .resolve row.alert ∨
        row.event = .suppress ∧ x = .suppress row.alert) ∧
      (sendHeld active (n, sent) row).1 = n.deliver x) := by
  unfold sendHeld
  cases hevent : row.event with
  | fire =>
    simp only
    cases hfind : active.find? fun a =>
        decide (a.subject = row.alert.subject ∧ a.check = row.alert.check) with
    | none => exact .inl ⟨rfl, .inl trivial⟩
    | some a =>
      have ha : a.subject = row.alert.subject ∧ a.check = row.alert.check := by
        simpa using find?_some hfind
      simp only
      split
      next hsend =>
        exact .inr (.inl ⟨a, mem_of_find?_eq_some hfind, ha.2, hsend.1, trivial, rfl⟩)
      · exact .inl ⟨rfl, .inl trivial⟩
  | resolve =>
    simp only
    by_cases hagain : openAgain active row.alert = true
    · exact .inl ⟨by rw [if_pos hagain], .inr hagain⟩
    · exact .inr (.inr ⟨by simpa using hagain, _, rfl, .inl ⟨trivial, rfl⟩, by rw [if_neg hagain]⟩)
  | suppress =>
    simp only
    by_cases hagain : openAgain active row.alert = true
    · exact .inl ⟨by rw [if_pos hagain], .inr hagain⟩
    · exact .inr (.inr ⟨by simpa using hagain, _, rfl, .inr ⟨trivial, rfl⟩, by rw [if_neg hagain]⟩)

/-- An alert of the check is active and not rolled up. -/
def isLive (active : List Alert) (key : DedupKey) : Bool :=
  active.any fun a => a.dedupKey = key ∧ a.rootCause = none

section

variable {active : List Alert} (h : KeepsHours ch n)
  (hactive : ∀ a ∈ active, a.check = key.check → a.dedupKey = key) {row : HeldRow}
  (hrow : row.alert.check = key.check → RowFor key row) (sent : List (Subject × CheckId))

include h hactive hrow

/-- The calls that sending a row makes about the check with the key. -/
theorem sendHeld_calls :
    KeepsHours ch (sendHeld active (n, sent) row).1 ∧
    (sendHeld active (n, sent) row).1.hours = n.hours ∧
    (sendHeld active (n, sent) row).1.heldRows = n.heldRows ∧
    ∃ ext, ((sendHeld active (n, sent) row).1.view ch key.check).calls
        = (n.view ch key.check).calls ++ ext ∧
      (∀ call ∈ ext, call = callFor key (isLive active key)) ∧
      (ext ≠ [] → row.alert.check = key.check ∧ (isLive active key = true → row.event = .fire)) ∧
      (isLive active key = false → row.alert.check = key.check → row.event ≠ .fire → ext ≠ []) := by
  -- Whether an end of the check is stale is whether the check is live.
  have hagain : row.alert.check = key.check → openAgain active row.alert = isLive active key := by
    intro hc
    simp only [openAgain, isLive, (hrow hc).key]
  rcases sendHeld_cases active n sent row with ⟨hsend, hwhy⟩ | ⟨a, ha, hcheck, hroot, hev, hsend⟩ |
    ⟨hstale, x, hx, hev, hsend⟩ <;> rw [hsend]
  · refine ⟨h, rfl, rfl, [], by simp, by simp, by simp, fun hlive hc hne => ?_⟩
    rcases hwhy with hev | hopen
    · exact absurd hev hne
    · rw [hagain hc, hlive] at hopen
      cases hopen
  · refine ⟨h.deliver _, (deliver_delivered n _).hours, deliver_heldRows n _, ?_⟩
    by_cases hc : row.alert.check = key.check
    · have hkey : a.dedupKey = key := hactive a ha (hcheck.trans hc)
      have hlive : isLive active key = true := by
        simp only [isLive, any_eq_true, decide_eq_true_eq]
        exact ⟨a, ha, hkey, hroot⟩
      rcases deliver_log h (.fire a) with ⟨hlog, _⟩ | ⟨hlog, _⟩ | ⟨_, hends⟩
      · exact ⟨[], by simp [view, hlog], by simp, by simp, by simp [hlive]⟩
      · refine ⟨[.deliver key], ?_, by simp [callFor, hlive], fun _ => ⟨hc, fun _ => hev⟩, by simp⟩
        simp [view, hlog, alert, hkey, ChannelCall.key]
      · cases hends
    · refine ⟨[], ?_, by simp, by simp, fun _ hc' => absurd hc' hc⟩
      rw [view_deliver_of_ne h (x := .fire a) (fun he => hc (hcheck.symm.trans he)), append_nil]
  · refine ⟨h.deliver _, (deliver_delivered n _).hours, deliver_heldRows n _, ?_⟩
    by_cases hc : row.alert.check = key.check
    · have hkey : row.alert.dedupKey = key := (hrow hc).key
      have hends : x.ends x.alert.dedupKey = true := by
        rcases hev with ⟨hev, rfl⟩ | ⟨hev, rfl⟩
        · simp [ends, alert, (hrow hc).own hev]
        · simp [ends, alert]
      rw [hagain hc] at hstale
      rcases deliver_log h x with ⟨_, hnot⟩ | ⟨_, hann⟩ | ⟨hlog, _⟩
      · simp [hends] at hnot
      · rcases hev with ⟨_, rfl⟩ | ⟨_, rfl⟩ <;> cases hann
      · refine ⟨[.resolve key], ?_, by simp [callFor, hstale],
          fun _ => ⟨hc, by simp [hstale]⟩, by simp⟩
        simp [view, hlog, hx, hkey, ChannelCall.key]
    · refine ⟨[], ?_, by simp, by simp, fun _ hc' => absurd hc' hc⟩
      have hne : x.check ≠ key.check := by
        rw [check, hx]
        exact hc
      rw [view_deliver_of_ne h hne, append_nil]

/-- One row of the loop. -/
theorem releaseRow_released (now : UnixMs) :
    Released ch key (isLive active key) now [row] n (releaseRow active now (n, sent) row).1 := by
  unfold releaseRow
  by_cases ho : n.hours.isOpen row.alert.node now = true
  · rw [if_pos ho]
    obtain ⟨hkeeps, hhours, hheld, ext, hcalls, hkind, hcheck, hends⟩ :=
      sendHeld_calls h hactive hrow sent
    rcases hsend : sendHeld active (n, sent) row with ⟨m, sent'⟩
    rw [hsend] at hkeeps hhours hheld hcalls
    refine ⟨⟨hkeeps.channel, hkeeps.matched, hkeeps.hours,
      by simpa [removeHeld] using hkeeps.store⟩, hhours, ?_, ext, hcalls, hkind,
      fun hne => ⟨row, by simp, (hcheck hne).1, ho, (hcheck hne).2⟩, ?_⟩
    · have hremove : (m.removeHeld row.id).heldRows = m.heldRows.filter fun r => r.id ≠ row.id := by
        unfold heldRows removeHeld
        cases m.held <;> rfl
      rw [hremove, hheld]
      simp [ho]
    · intro hlive r hr hc _ he
      rw [mem_singleton.1 hr] at hc he
      exact hends hlive hc he
  · rw [if_neg ho]
    refine ⟨h, rfl, by simp [ho], [], by simp, by simp, by simp, ?_⟩
    intro _ r hr _ ho'
    rw [mem_singleton.1 hr] at ho'
    exact absurd ho' ho

end

/-- Part of the loop. -/
theorem foldl_released (hactive : ∀ a ∈ active, a.check = key.check → a.dedupKey = key)
    (hl : ∀ row ∈ l, row.alert.check = key.check → RowFor key row) (h : KeepsHours ch n)
    (sent : List (Subject × CheckId)) (now : UnixMs) :
    Released ch key (isLive active key) now l n (l.foldl (releaseRow active now) (n, sent)).1 := by
  induction l generalizing n sent with
  | nil => exact .refl h
  | cons row rest ih =>
    have hone := releaseRow_released h hactive (hl row mem_cons_self) sent now
    rw [foldl_cons]
    rcases hr : releaseRow active now (n, sent) row with ⟨m, sent'⟩
    rw [hr] at hone
    exact hone.trans (ih (fun r hr => hl r (mem_cons_of_mem row hr)) hone.keeps sent')

/-! ### The whole pass -/

/-- A turn of the release loop at a check whose alerts have one key. -/
theorem releasePass_view (h : KeepsHours ch n)
    (hactive : ∀ a ∈ active, a.check = key.check → a.dedupKey = key)
    (hrows : ∀ row ∈ (n.view ch key.check).rows, RowFor key row) (now : UnixMs) :
    KeepsHours ch (n.releasePass active now) ∧
    (n.releasePass active now).hours = n.hours ∧
    if n.hours.isOpen key.subject.asNode now then
      ((n.releasePass active now).view ch key.check).rows = [] ∧
      ∃ ext, ((n.releasePass active now).view ch key.check).calls
          = (n.view ch key.check).calls ++ ext ∧
        (∀ call ∈ ext, call = callFor key (isLive active key)) ∧
        (ext ≠ [] → isLive active key = true → ∃ row ∈ (n.view ch key.check).rows,
          row.event = .fire) ∧
        (isLive active key = false → ∀ row ∈ (n.view ch key.check).rows, row.event ≠ .fire →
          ext ≠ [])
    else (n.releasePass active now).view ch key.check = n.view ch key.check := by
  obtain ⟨store, hstore⟩ := Option.isSome_iff_exists.1 h.store
  have hheld : n.heldRows = store.rows := heldRows_of_held hstore
  have hview : ∀ {row}, row ∈ (n.view ch key.check).rows ↔
      row ∈ store.rows ∧ row.alert.check = key.check := by
    simp [view, hheld]
  have hrel : Released ch key (isLive active key) now store.rows n (n.releasePass active now) := by
    have hpass : n.releasePass active now
        = (store.rows.foldl (releaseRow active now) (n, [])).1 := by
      simp only [releasePass, release, hstore]
    rw [hpass]
    exact foldl_released hactive (fun row hrow hc => hrows row (hview.2 ⟨hrow, hc⟩)) h [] now
  -- A row of the check is about the key's subject, so its node is open when the subject's is.
  have hnode : ∀ row ∈ (n.view ch key.check).rows, row.alert.node = key.subject.asNode := by
    intro row hrow
    rw [← (hrows row hrow).key]
    rfl
  refine ⟨hrel.keeps, hrel.hours, ?_⟩
  have hrows' : ((n.releasePass active now).view ch key.check).rows
      = (n.view ch key.check).rows.filter fun r =>
        r.id ∉ (store.rows.filter fun row => n.hours.isOpen row.alert.node now).map (·.id) := by
    simp only [view, hrel.rows, filter_filter, Bool.and_comm]
  obtain ⟨ext, hcalls, hkind, hopen, hends⟩ := hrel.calls
  by_cases ho : n.hours.isOpen key.subject.asNode now = true
  · rw [if_pos ho]
    refine ⟨?_, ext, hcalls, hkind, fun hne hlive => ?_, fun hlive row hrow he => ?_⟩
    · rw [hrows', filter_eq_nil_iff]
      intro row hrow
      simp only [decide_not, Bool.not_eq_true', decide_eq_false_iff_not, not_not]
      refine mem_map.2 ⟨row, mem_filter.2 ⟨(hview.1 hrow).1, ?_⟩, rfl⟩
      rw [hnode row hrow]
      exact ho
    · obtain ⟨row, hrow, hc, _, hfire⟩ := hopen hne
      exact ⟨row, hview.2 ⟨hrow, hc⟩, hfire hlive⟩
    · obtain ⟨hstored, hc⟩ := hview.1 hrow
      exact hends hlive row hstored hc (by rw [hnode row hrow]; exact ho) he
  · rw [if_neg ho]
    -- No row of the check is open, and ids are distinct, so nothing of it is sent or forgotten.
    have hext : ext = [] := by
      by_contra hne
      obtain ⟨row, hrow, hc, hopen, _⟩ := hopen hne
      rw [hnode row (hview.2 ⟨hrow, hc⟩)] at hopen
      exact ho hopen
    have hkept : ((n.releasePass active now).view ch key.check).rows
        = (n.view ch key.check).rows := by
      rw [hrows', filter_eq_self]
      intro row hrow
      simp only [decide_eq_true_eq]
      intro hid
      obtain ⟨other, hother, hid⟩ := mem_map.1 hid
      obtain ⟨hother, hopen⟩ := mem_filter.1 hother
      obtain rfl : other = row :=
        inj_on_of_nodup_map store.distinct hother (hview.1 hrow).1 hid
      rw [hnode other hrow] at hopen
      exact ho hopen
    rw [hext, append_nil] at hcalls
    exact View.ext hcalls hkept

end Notifier

end Yagra
