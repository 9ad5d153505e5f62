import Yagra.History.Timeline
import Yagra.Proofs.History
import Yagra.Proofs.Release

/-!
# `Yagra.Proofs.Replay`: the outages of the replay and those that happened

The replay of the last days reads the liveness rows back from the history. It takes the time in a
Resolve for the end of the outage, and that is the time of the Fire.

`Stretches` are the outages that happened, from the observation that opened the liveness alert of a
node to the one that closed it. `Told` relates them to the rows of the check, and every result of a
run keeps the two in step (`inReplay_run`). `InReplay.reported` says what the replay makes of every
run. An outage that began inside the window ends where it began, and one that ended after
beginning before the window is not seen. So the replay is exact when no outage of the node ended
inside the window (`outagesFromRows_exact`). `ended_outages_misread` is a run where one did.
-/

set_option autoImplicit false

namespace Yagra

open Std (ExtTreeMap)
open Yagra.Lib Replay List

/-! ### What happened -/

/-- The stretches of a run in which a check had an alert: those that ended, and where the open one
began. -/
structure Stretches where
  ended : List (UnixMs × UnixMs)
  isOpen : Option UnixMs
deriving DecidableEq

namespace Stretches

/-- The check has an alert after an observation at `t`, or it has none. -/
def observe (sp : Stretches) (t : UnixMs) (active : Bool) : Stretches :=
  if active then { sp with isOpen := some (sp.isOpen.getD t) }
  else ⟨sp.ended ++ sp.isOpen.toList.map fun start => (start, t), none⟩

theorem observe_isOpen (sp : Stretches) (t : UnixMs) : sp.observe t sp.isOpen.isSome = sp := by
  obtain ⟨ended, isOpen⟩ := sp
  cases isOpen <;> simp [observe]

/-- Where a stretch begins as seen from the window. -/
def clip (sinceMs start : UnixMs) : UnixMs := if start < sinceMs then sinceMs - 1 else start

/-- The stretches inside the window. -/
def inside (n : NodeId) (sinceMs : UnixMs) (sp : Stretches) : List Outage :=
  (sp.ended.filter fun iv => decide (sinceMs < iv.2)).map
      (fun iv => ⟨n, clip sinceMs iv.1, some iv.2⟩)
    ++ sp.isOpen.toList.map fun start => ⟨n, clip sinceMs start, none⟩

/-- What the replay makes of them. -/
def reported (n : NodeId) (sinceMs : UnixMs) (sp : Stretches) : List Outage :=
  (sp.ended.filter fun iv => decide (sinceMs ≤ iv.1)).map (fun iv => ⟨n, iv.1, some iv.1⟩)
    ++ sp.isOpen.toList.map fun start => ⟨n, clip sinceMs start, none⟩

/-- The two agree when no stretch ended inside the window. -/
theorem inside_eq_reported {sp : Stretches} {sinceMs : UnixMs}
    (hforward : ∀ iv ∈ sp.ended, iv.1 < iv.2) (hended : ∀ iv ∈ sp.ended, iv.2 ≤ sinceMs)
    (n : NodeId) : sp.inside n sinceMs = sp.reported n sinceMs := by
  have hinside : (sp.ended.filter fun iv => decide (sinceMs < iv.2)) = [] := by
    simpa [filter_eq_nil_iff] using fun a b hiv => hended (a, b) hiv
  have hreported : (sp.ended.filter fun iv => decide (sinceMs ≤ iv.1)) = [] := by
    simpa [filter_eq_nil_iff] using
      fun a b hiv => (hforward (a, b) hiv).trans_le (hended (a, b) hiv)
  rw [inside, reported, hinside, hreported]
  rfl

end Stretches

/-! ### What the rows tell of it -/

/-- The rows of a check, by time and whether they resolve, beside its stretches. -/
inductive Told : Stretches → List (UnixMs × Bool) → Prop
  | start : Told ⟨[], none⟩ []
  | opened {ended : List (UnixMs × UnixMs)} {rows : List (UnixMs × Bool)} {t : UnixMs}
      (h : Told ⟨ended, none⟩ rows) (hlater : ∀ row ∈ rows, row.1 < t) :
      Told ⟨ended, some t⟩ (rows ++ [(t, false)])
  /-- The open alert is fired again, with its own time. -/
  | again {ended : List (UnixMs × UnixMs)} {rows : List (UnixMs × Bool)} {t : UnixMs}
      (h : Told ⟨ended, some t⟩ rows) : Told ⟨ended, some t⟩ (rows ++ [(t, false)])
  | closed {ended : List (UnixMs × UnixMs)} {rows : List (UnixMs × Bool)} {t t' : UnixMs}
      (h : Told ⟨ended, some t⟩ rows) (hlater : t < t') :
      Told ⟨ended ++ [(t, t')], none⟩ (rows ++ [(t, true)])

namespace Told

variable {sp : Stretches} {rows : List (UnixMs × Bool)}

theorem forward (h : Told sp rows) : ∀ iv ∈ sp.ended, iv.1 < iv.2 := by
  induction h with
  | start => exact fun _ hiv => absurd hiv not_mem_nil
  | opened _ _ ih | again _ ih => exact ih
  | closed _ hlater ih => exact forall_mem_append.2 ⟨ih, forall_mem_singleton.2 hlater⟩

/-- The Fire of the open stretch is there. -/
theorem open_mem (h : Told sp rows) {t : UnixMs} (hopen : sp.isOpen = some t) :
    (t, false) ∈ rows := by
  cases h with
  | start | closed => cases hopen
  | opened | again =>
    cases hopen
    simp

/-- No row is later than the Fire of the open stretch. -/
theorem le_open (h : Told sp rows) {t : UnixMs} (hopen : sp.isOpen = some t) :
    ∀ row ∈ rows, toLex row ≤ toLex (t, false) := by
  induction h with
  | start | closed => cases hopen
  | opened _ hlater _ =>
    cases hopen
    refine forall_mem_append.2 ⟨fun row hrow => ?_, forall_mem_singleton.2 le_rfl⟩
    exact Prod.Lex.toLex_le_toLex.2 (.inl (hlater row hrow))
  | again _ ih =>
    have hrows := ih hopen
    cases hopen
    exact forall_mem_append.2 ⟨hrows, forall_mem_singleton.2 le_rfl⟩

/-- The rows were written in the order in which they are read. -/
theorem sorted (h : Told sp rows) : rows.Pairwise fun a b => toLex a ≤ toLex b := by
  have hconcat : ∀ {l : List (UnixMs × Bool)} {b : UnixMs × Bool},
      l.Pairwise (fun a b => toLex a ≤ toLex b) → (∀ a ∈ l, toLex a ≤ toLex b) →
      (l ++ [b]).Pairwise fun a b => toLex a ≤ toLex b :=
    fun hl hb => pairwise_append.2 ⟨hl, pairwise_singleton _ _, by simpa using hb⟩
  induction h with
  | start => exact .nil
  | opened _ hlater ih =>
    exact hconcat ih fun row hrow => Prod.Lex.toLex_le_toLex.2 (.inl (hlater row hrow))
  | again h ih => exact hconcat ih (h.le_open rfl)
  | closed h _ ih =>
    exact hconcat ih fun row hrow =>
      (h.le_open rfl row hrow).trans (Prod.Lex.toLex_le_toLex.2 (.inr ⟨rfl, by simp⟩))

end Told

/-! ### The replay of one node -/

namespace Replay

variable {s : Replay} {sinceMs t start : UnixMs} {n : NodeId}

theorem row_fire_open (h : s.isOpen[n]? = some (some start)) : s.row sinceMs (n, t, false) = s := by
  simp [row, h]

theorem row_fire (h : s.isOpen[n]?.join = none) :
    s.row sinceMs (n, t, false) = { s with isOpen := s.isOpen.insert n (some t) } := by
  rcases hs : s.isOpen[n]? with _ | _ | start
  · simp [row, hs]
  · simp [row, hs]
  · simp [hs] at h

theorem row_resolve (h : s.isOpen[n]? = some (some start)) :
    s.row sinceMs (n, t, true) = ⟨s.isOpen.insert n none, s.outages ++ [⟨n, start, some t⟩]⟩ := by
  simp [row, h]

/-- What the replay knows of a node. -/
def view (n : NodeId) (s : Replay) : Option (Option UnixMs) × List Outage :=
  (s.isOpen[n]?, s.outages.filter fun o => decide (o.node = n))

theorem view_row_of_ne {row : NodeId × UnixMs × Bool} (h : row.1 ≠ n) :
    view n (s.row sinceMs row) = view n s := by
  obtain ⟨m, t, resolved⟩ := row
  rcases resolved <;> rcases hs : s.isOpen[m]? with _ | _ | start <;>
    simp [row, view, hs, ExtTreeMap.getElem?_insert, h]

theorem view_row_congr {s' : Replay} {row : NodeId × UnixMs × Bool} (hn : row.1 = n)
    (h : view n s = view n s') : view n (s.row sinceMs row) = view n (s'.row sinceMs row) := by
  obtain ⟨m, t, resolved⟩ := row
  subst hn
  obtain ⟨hslot, houtages⟩ := Prod.mk.injEq .. ▸ h
  rcases resolved <;> rcases hs : s.isOpen[m]? with _ | _ | start <;>
    simp [row, view, hs, hslot ▸ hs, houtages]

/-- The rows of the other nodes do not matter. -/
theorem view_foldl (rows : List (NodeId × UnixMs × Bool)) :
    view n (rows.foldl (row sinceMs) s)
      = view n ((rows.filter fun row => decide (row.1 = n)).foldl (row sinceMs) s) := by
  refine foldl_filter_view (fun s row h => ?_) (fun s s' row h => ?_) rows rfl
  · exact view_row_of_ne (by simpa using h)
  · exact view_row_congr (by simpa using h)

/-- The replay of the rows of one node that are inside the window. -/
def ofNode (n : NodeId) (sinceMs : UnixMs) (rows : List (UnixMs × Bool)) : Replay :=
  ((rows.filter fun row => decide (sinceMs ≤ row.1)).map fun row => (n, row)).foldl (row sinceMs)
    ⟨∅, []⟩

variable {resolved : Bool} {rows : List (UnixMs × Bool)}

theorem ofNode_append_of_lt (h : t < sinceMs) :
    ofNode n sinceMs (rows ++ [(t, resolved)]) = ofNode n sinceMs rows := by
  simp [ofNode, h]

theorem ofNode_append_of_le (h : sinceMs ≤ t) :
    ofNode n sinceMs (rows ++ [(t, resolved)])
      = (ofNode n sinceMs rows).row sinceMs (n, t, resolved) := by
  simp [ofNode, h]

/-- Before the first row inside the window. -/
theorem ofNode_of_lt (h : ∀ row ∈ rows, row.1 < sinceMs) : ofNode n sinceMs rows = ⟨∅, []⟩ := by
  have hnone : (rows.filter fun row => decide (sinceMs ≤ row.1)) = [] := by
    simpa [filter_eq_nil_iff] using fun a b hrow => h (a, b) hrow
  rw [ofNode, hnone]
  rfl

end Replay

/-- What the replay knows of a node after the rows that tell its stretches. -/
structure Replayed (n : NodeId) (sinceMs : UnixMs) (sp : Stretches) (s : Replay) : Prop where
  slot : ∀ t, sp.isOpen = some t → s.isOpen[n]? = if sinceMs ≤ t then some (some t) else none
  closed : sp.isOpen = none → s.isOpen[n]?.join = none
  outages : s.outages
    = (sp.ended.filter fun iv => decide (sinceMs ≤ iv.1)).map fun iv => ⟨n, iv.1, some iv.1⟩

namespace Replayed

variable {n : NodeId} {sinceMs t : UnixMs} {ended : List (UnixMs × UnixMs)} {s : Replay}

theorem of_open (hslot : s.isOpen[n]? = if sinceMs ≤ t then some (some t) else none)
    (houtages : s.outages
      = (ended.filter fun iv => decide (sinceMs ≤ iv.1)).map fun iv => ⟨n, iv.1, some iv.1⟩) :
    Replayed n sinceMs ⟨ended, some t⟩ s := by
  refine ⟨fun t' ht' => ?_, fun hnone => absurd hnone (by simp), houtages⟩
  cases ht'
  exact hslot

theorem of_closed (hslot : s.isOpen[n]?.join = none)
    (houtages : s.outages
      = (ended.filter fun iv => decide (sinceMs ≤ iv.1)).map fun iv => ⟨n, iv.1, some iv.1⟩) :
    Replayed n sinceMs ⟨ended, none⟩ s :=
  ⟨fun _ ht => absurd ht (by simp), fun _ => hslot, houtages⟩

end Replayed

variable {x : Alert × Bool} {rows : List (UnixMs × Bool)} {stamp : Nat → Uuid × UnixMs}
  {P : Option Alert → Alert → Prop} {sp : Stretches}

theorem Told.replayed (h : Told sp rows) (n : NodeId) (sinceMs : UnixMs) :
    Replayed n sinceMs sp (.ofNode n sinceMs rows) := by
  induction h with
  | start => exact .of_closed (by simp [ofNode]) rfl
  | @opened ended rows t _ hlater ih =>
    rcases lt_or_ge t sinceMs with ht | ht
    · -- No row of the check is inside the window yet.
      have hnone := ofNode_of_lt (n := n) fun row hrow => (hlater row hrow).trans ht
      rw [ofNode_append_of_lt ht]
      refine .of_open ?_ ih.outages
      simp [hnone, not_le.2 ht]
    · rw [ofNode_append_of_le ht, row_fire (ih.closed rfl)]
      refine .of_open ?_ ih.outages
      simp [ht]
  | @again ended rows t _ ih =>
    rcases lt_or_ge t sinceMs with ht | ht
    · rw [ofNode_append_of_lt ht]
      exact ih
    · rw [ofNode_append_of_le ht, row_fire_open ((ih.slot t rfl).trans (if_pos ht))]
      exact ih
  | @closed ended rows t t' _ hlater ih =>
    rcases lt_or_ge t sinceMs with ht | ht
    · rw [ofNode_append_of_lt ht]
      refine .of_closed ?_ ?_
      · simp [ih.slot t rfl, not_le.2 ht]
      · rw [ih.outages]
        simp [not_le.2 ht]
    · rw [ofNode_append_of_le ht, row_resolve ((ih.slot t rfl).trans (if_pos ht))]
      exact .of_closed (by simp) (by simp [ih.outages, ht])

/-! ### The answer for one node -/

section
variable {n : NodeId} {sinceMs : UnixMs} {downNow : OrdSet NodeId}

theorem filter_toList_down (n : NodeId) :
    downNow.toList.filter (fun m => decide (m = n)) = if n ∈ downNow then [n] else [] := by
  split
  next h =>
    have hnodup : (downNow.toList.map id).Nodup := by simpa using downNow.sorted.nodup
    exact filter_key_eq_singleton hnodup h
  next h =>
    refine filter_eq_nil_iff.2 fun m hm heq => h ?_
    rw [← of_decide_eq_true heq]
    exact hm

/-- The outages of a node are what the replay knows of it, and the outage that has no row. -/
theorem outagesFromRows_node (rows : List (NodeId × UnixMs × Bool)) :
    (outagesFromRows rows sinceMs downNow).filter (fun o => decide (o.node = n)) =
      ((rows.foldl (row sinceMs) ⟨∅, []⟩).view n).2
        ++ ((rows.foldl (row sinceMs) ⟨∅, []⟩).view n).1.join.toList.map
            (fun start => ⟨n, start, none⟩)
        ++ if n ∈ downNow ∧ ((rows.foldl (row sinceMs) ⟨∅, []⟩).view n).1 = none then
            [⟨n, sinceMs - 1, none⟩] else [] := by
  unfold outagesFromRows
  generalize rows.foldl (row sinceMs) ⟨∅, []⟩ = s
  have hopen : (s.isOpen.toList.filterMap fun p =>
        p.2.map fun start => (⟨p.1, start, none⟩ : Outage)).filter (fun o => decide (o.node = n))
      = s.isOpen[n]?.join.toList.map fun start => ⟨n, start, none⟩ := by
    calc _ = (s.isOpen.toList.filter fun p => decide (p.1 = n)).filterMap fun p =>
          p.2.map fun start => ⟨p.1, start, none⟩ := by
          rw [filter_filterMap, filterMap_filter]
          refine filterMap_congr fun p _ => ?_
          by_cases hp : p.1 = n <;> cases p.2 <;> simp [hp]
      _ = _ := by
          rw [filter_toList]
          rcases s.isOpen[n]? with _ | _ | start <;> simp
  have hdown : ((downNow.toList.filter fun m => !s.isOpen.contains m).map fun m =>
        (⟨m, sinceMs - 1, none⟩ : Outage)).filter (fun o => decide (o.node = n))
      = if n ∈ downNow ∧ s.isOpen[n]? = none then [⟨n, sinceMs - 1, none⟩] else [] := by
    have hswap : (downNow.toList.filter fun m => !s.isOpen.contains m).filter
          (fun m => decide (m = n))
        = (downNow.toList.filter fun m => decide (m = n)).filter fun m => !s.isOpen.contains m := by
      simp only [filter_filter, Bool.and_comm]
    rw [filter_map]
    refine (congrArg (map _) (hswap.trans (by rw [filter_toList_down]))).trans ?_
    have hseen : s.isOpen.contains n = s.isOpen[n]?.isSome :=
      ExtTreeMap.contains_eq_isSome_getElem?
    by_cases hn : n ∈ downNow <;> cases hs : s.isOpen[n]? <;> rw [hs] at hseen <;>
      simp [hn, hseen]
  rw [filter_append, filter_append]
  exact congrArg₂ _ (congrArg _ hopen) hdown

end

/-! ### The rows of a move -/

/-- What the replay reads of a row. -/
def rowTime (x : Alert × Bool) : UnixMs × Bool := (x.1.atUnixMs, x.2)

variable {c : CheckId} {acts : List NotifyAction} {n : NodeId} {b b' : Option Alert}
  {sinceMs : UnixMs}

/-- A move at `t` that dates an alert only when it opens it keeps the rows in step with the
stretches. -/
theorem Told.move {t : UnixMs} (h : Told sp rows) (hopen : sp.isOpen = b.map (·.atUnixMs))
    (hmove : Move (fun _ a => a.notifyHeldUntil = none) c b acts b')
    (hunheld : ∀ a, b = some a → a.notifyHeldUntil = none) (hlater : ∀ row ∈ rows, row.1 < t)
    (hdate : ∀ a', b' = some a' → a'.atUnixMs = (b.map (·.atUnixMs)).getD t) :
    Told (sp.observe t b'.isSome) (rows ++ (acts.filterMap historyRow).map rowTime) ∧
      (sp.observe t b'.isSome).isOpen = b'.map (·.atUnixMs) := by
  obtain ⟨ended, isOpen⟩ := sp
  subst hopen
  -- An alert that is fired, for the first time or again.
  have hfired : ∀ a', b' = some a' →
      Told (Stretches.observe ⟨ended, b.map (·.atUnixMs)⟩ t true)
        (rows ++ [(a'.atUnixMs, false)]) := by
    intro a' ha'
    rw [hdate a' ha']
    cases b with
    | none => exact h.opened hlater
    | some a => exact h.again
  -- An alert that stays, without a row.
  have hkept : ∀ a, b = some a →
      Told (Stretches.observe ⟨ended, b.map (·.atUnixMs)⟩ t true) (rows ++ []) := by
    intro a ha
    subst ha
    rw [append_nil]
    exact h
  have htime : b'.isSome → (Stretches.observe ⟨ended, b.map (·.atUnixMs)⟩ t b'.isSome).isOpen
      = b'.map (·.atUnixMs) := by
    intro hsome
    obtain ⟨a', rfl⟩ := Option.isSome_iff_exists.1 hsome
    simp [Stretches.observe, hdate a' rfl]
  cases hmove with
  | stay =>
    cases b with
    | none => exact ⟨by simpa [Stretches.observe] using h, rfl⟩
    | some a => exact ⟨hkept a rfl, htime rfl⟩
  | opened _ _ _ | refired _ _ _ => exact ⟨hfired _ rfl, htime rfl⟩
  | holding hp _ hh => simp [hp] at hh
  | dropped hh => simp [hunheld _ rfl] at hh
  | retagged _ _ _ | suppressed _ _ _ _ _ => exact ⟨hkept _ rfl, htime rfl⟩
  | @closed a _ => exact ⟨h.closed (hlater _ (h.open_mem rfl)), rfl⟩

/-- The rows of a move are of the alert before it or of the one after it. -/
theorem Move.row_mem (h : Move P c b acts b') (hx : x ∈ acts.filterMap historyRow) :
    b = some x.1 ∨ b' = some x.1 := by
  cases h with
  | stay | holding | dropped | retagged | suppressed => cases hx
  | opened | refired =>
    rw [mem_singleton.1 (show x ∈ [(_, false)] from hx)]
    exact .inr rfl
  | closed =>
    rw [mem_singleton.1 (show x ∈ [(_, true)] from hx)]
    exact .inl rfl

/-! ### Poll results under a fixed configuration -/

/-- The step observes the liveness of a node at `t`, outside maintenance and under a rule. -/
inductive Atom.IsLiveness (t : UnixMs) : Atom → Prop
  | mk {order : List CheckId} {node : NodeId} {raw : NodeState} {spec : CheckSpec}
      (hl : spec.isLiveness = true) (halerting : spec.alerting = true) (hraw : raw ≠ .maintenance) :
      IsLiveness t (.check order node raw t spec)

namespace AlertManager

/-- What holds along a run of poll results under a loaded configuration without holds and
maintenance, with a liveness rule for every node. -/
structure Followed (s : AlertManager) : Prop where
  consistent : s.Consistent
  sound : s.LivenessSound
  breaches : s.BreachesProblem
  watching : s.Watching
  tracked : s.DownTracked
  loaded : s.config.loaded = true
  waitless : ∀ n, s.config.groupingWait = false ∨ s.config.grouping.levelOf n = .off
  unheld : ∀ c a, s.active c = some a → a.notifyHeldUntil = none
  alerted : ∀ n, s.committedAt (livenessCheck n) = .unreachable →
    s.live n = some .unreachable ∧ (s.active (livenessCheck n)).isSome

namespace Followed

variable {s : AlertManager} {x : Atom} {t : UnixMs}

/-- A node is down when it has a liveness alert. -/
theorem mem_down (h : s.Followed) (n : NodeId) :
    n ∈ s.down ↔ (s.active (livenessCheck n)).isSome := by
  rw [h.watching.down]
  constructor
  · exact fun hn => (h.alerted n (h.tracked n hn)).2
  · exact fun hn => (h.alerted n (h.sound.committed hn)).1

theorem opensUnheld (h : s.Followed) : OpensWith (fun _ a => a.notifyHeldUntil = none) s x := by
  intro c a ho
  by_contra hne
  cases ho with
  | @transition _ node _ _ _ _ _ _ _ _ _ _ hheld =>
    obtain ⟨-, -, hwait, hlevel⟩ := hheld (Option.ne_none_iff_isSome.1 hne)
    rcases h.waitless node with hno | hno
    · simp [hno] at hwait
    · exact hlevel hno
  | raised _ hnone => exact hne hnone

end Followed

end AlertManager

/-- A move that holds nothing back leaves nothing held. -/
theorem Move.unheld (h : Move (fun _ a => a.notifyHeldUntil = none) c b acts b')
    (hb : ∀ a, b = some a → a.notifyHeldUntil = none) :
    ∀ a, b' = some a → a.notifyHeldUntil = none := by
  intro a ha
  cases h with
  | stay => exact hb a ha
  | opened hp _ _ | holding hp _ _ =>
    cases ha
    exact hp
  | closed | dropped => cases ha
  | refired _ hh _ | suppressed _ _ hh _ _ =>
    cases ha
    exact hh
  | retagged _ _ hh =>
    cases ha
    exact hh.trans (hb _ rfl)

namespace AlertManager.Followed

variable {s : AlertManager} {x : Atom} {t : UnixMs}

/-- A sample leaves the liveness of the nodes alone. -/
theorem alerted_sample (h : s.Followed) (hsample : x.IsSample) (n : NodeId)
    (hn : (atomStep s x).1.committedAt (livenessCheck n) = .unreachable) :
    (atomStep s x).1.live n = some .unreachable ∧
      ((atomStep s x).1.active (livenessCheck n)).isSome := by
  have hentries := atom_entries (s := s) (hsample.alone n)
  rw [committedAt, states_of_entries hentries] at hn
  rw [(atom_live hsample.keepsLive).1, active_of_entries hentries]
  exact h.alerted n hn

/-- A liveness observation that commits an outage opens its alert. -/
theorem alerted_check (h : s.Followed) {order : List CheckId} {node : NodeId} {raw : NodeState}
    {spec : CheckSpec} (hspec : SpecOk node raw spec) (hl : spec.isLiveness = true)
    (halerting : spec.alerting = true) (n : NodeId)
    (hn : (s.processCheck order node raw t spec).1.committedAt (livenessCheck n) = .unreachable) :
    (s.processCheck order node raw t spec).1.live n = some .unreachable ∧
      ((s.processCheck order node raw t spec).1.active (livenessCheck n)).isSome := by
  obtain ⟨hc, -⟩ := hspec.of_isLiveness hl
  rw [processCheck_live order node raw t hl]
  by_cases hnode : n = node
  · subst hnode
    rw [committedAt, processCheck_states, ← hc, Function.update_self] at hn
    have hn : (s.nextState raw t spec).committed = .unreachable := hn
    rw [processCheck_isSome, ← hc, Function.update_self]
    cases htr : s.transitionOf raw t spec with
    | none =>
      rw [transitionOf_none htr, hc] at hn
      obtain ⟨hlive, hsome⟩ := h.alerted n hn
      refine ⟨?_, ?_⟩
      · cases ho : (s.nextState raw t spec).observed with
        | none => simpa using hlive
        | some committed =>
          rw [observed_eq_committed ho, transitionOf_none htr, hc, hn]
          rfl
      · rw [checkCore_isSome_of_no_transition h.consistent.slots htr halerting, hc]
        exact hsome
    | some tr =>
      obtain ⟨hstate, -, hcommitted, hobserved⟩ := transitionOf_some htr
      rw [hcommitted] at hn
      refine ⟨by rw [hobserved, hn]; rfl, checkCore_opens htr ?_ halerting⟩
      rw [hstate, hn]
      rfl
  · have hne : livenessCheck n ≠ spec.check := fun he => hnode (livenessCheck_inj (he.trans hc))
    obtain ⟨hstates, hsome⟩ := atom_spares (s := s)
      (show (Atom.check order node raw t spec).Spares (livenessCheck n) from hne)
    rw [Function.update_of_ne hnode]
    rw [committedAt, show (s.processCheck order node raw t spec).1.states _ = _ from hstates] at hn
    obtain ⟨hlive, hactive⟩ := h.alerted n hn
    exact ⟨hlive, hsome.trans hactive⟩

/-- A step of a poll result. -/
theorem poll_atom (h : s.Followed) (hx : AtomOk s x) (hpoll : x.IsSample ∨ x.IsLiveness t) :
    (atomStep s x).1.Followed := by
  obtain ⟨hmoves, hcons⟩ := atom_effect (P := fun _ a => a.notifyHeldUntil = none) h.consistent hx
    h.opensUnheld
  have hkept : x.KeepsConfig ∧ x.Plain ∧ x.SparesLiveness ∧ s.Ruled x := by
    rcases hpoll with hsample | hlive
    · refine ⟨hsample.isPoll.keepsConfig, hsample.plain, ?_, ?_⟩
      · have := hsample.isPoll
        cases x <;> trivial
      · cases x with
        | check => exact fun _ _ => h.loaded
        | _ => trivial
    · cases hlive with
      | mk hl halerting hraw => exact ⟨trivial, fun _ => hraw, trivial, fun _ _ => h.loaded⟩
  obtain ⟨hconfig, hplain, hspares, hruled⟩ := hkept
  exact {
    consistent := hcons
    sound := atom_livenessSound h.consistent hx hruled h.sound
    breaches := atom_breachesProblem h.consistent hx h.breaches
    watching := atom_watching hx hplain h.watching
    tracked := atom_downTracked hx hspares h.tracked
    loaded := by rw [atom_config hconfig]; exact h.loaded
    waitless := by rw [atom_config hconfig]; exact h.waitless
    unheld := fun c => (hmoves c).unheld (h.unheld c)
    alerted := by
      rcases hpoll with hsample | hlive
      · exact h.alerted_sample hsample
      · cases hlive with
        | mk hl halerting _ => exact h.alerted_check hx.1 hl halerting }

/-- A liveness observation dates the alert that it opens, and no other. -/
theorem liveness_time (h : s.Followed) (hx : AtomOk s x) (hlive : x.IsLiveness t) (n : NodeId)
    (a' : Alert) (ha' : (atomStep s x).1.active (livenessCheck n) = some a') :
    a'.atUnixMs = ((s.active (livenessCheck n)).map (·.atUnixMs)).getD t := by
  cases hlive with
  | @mk order node raw spec hl halerting hraw =>
    rcases atom_dated h.consistent hx h.breaches ha' with ⟨a, ha, hsame⟩ | ⟨hdated, -⟩
    · rw [ha]
      exact hsame.time
    · obtain ⟨hproblem, hc, rfl⟩ : raw.isProblem = true ∧ spec.check = livenessCheck n ∧
          t = a'.atUnixMs := by simpa [Atom.dated] using hdated
      cases ha : s.active (livenessCheck n) with
      | none => rfl
      | some a =>
        -- The outage is committed already, so the sample is no transition.
        have hcommitted := h.sound.committed (n := n) (by simp [ha])
        have hun : raw = .unreachable := by
          cases hx.1 with
          | liveness _ _ _ _ hraw =>
            rcases hraw with rfl | rfl | rfl | rfl <;> simp_all [NodeState.isProblem]
          | threshold hl' _ _ _ _ _ _ => simp [hl] at hl'
        have htr : s.transitionOf raw a'.atUnixMs spec = none := by
          by_contra hne
          obtain ⟨tr, htr⟩ := Option.ne_none_iff_exists'.1 hne
          exact (transitionOf_some htr).2.1 (by rw [hun, hc, hcommitted])
        have hown := processCheck_own (t := a'.atUnixMs) h.consistent hx.1 hx.2
        rw [atomStep, ← hc, hown] at ha'
        unfold checkCore at ha'
        simp only [halerting, Bool.true_eq_false, if_false, htr] at ha'
        have hactive : (s.trackSample node raw a'.atUnixMs spec).1.active spec.check = some a := by
          rw [trackSample_frame, hc]
          exact ha
        rcases withoutTransition_time (h.consistent.trackSample node raw _ spec) hactive ha'
          with htime | ⟨-, -, -, heval⟩
        · exact htime
        · simp [(hx.1.of_isLiveness hl).2] at heval

end AlertManager.Followed

/-! ### Along a run -/

/-- A poll result, with the samples that had no reading and an enumeration of the active alerts. -/
structure Poll where
  result : PollResult
  noReading : List Sample
  order : List CheckId

namespace Poll

/-- The poll as an operation. -/
def op (p : Poll) : Op := .observe p.result p.noReading p.order

/-- When it was made. -/
def time (p : Poll) : UnixMs := p.result.atUnixMs

end Poll

/-- The liveness rows of a node, as the replay reads them. -/
def livenessTimes (n : NodeId) (acts : List NotifyAction) : List (UnixMs × Bool) :=
  (rowsOf (livenessCheck n) acts).map rowTime

namespace AlertManager

/-- A poll result reaches the engine. `sp` follows the liveness alert of a node. -/
def followPoll (n : NodeId) (st : (AlertManager × List NotifyAction) × Stretches) (p : Poll) :
    (AlertManager × List NotifyAction) × Stretches :=
  (logged step st.1 p.op,
    st.2.observe p.time ((logged step st.1 p.op).1.active (livenessCheck n)).isSome)

/-- What holds of the engine, its actions and the stretches of a node. `last` is the time of the
last result. -/
structure InReplay (n : NodeId) (last : UnixMs)
    (st : (AlertManager × List NotifyAction) × Stretches) : Prop where
  followed : st.1.1.Followed
  told : Told st.2 (livenessTimes n st.1.2)
  isOpen : st.2.isOpen = (st.1.1.active (livenessCheck n)).map (·.atUnixMs)
  past : ∀ row ∈ livenessTimes n st.1.2, row.1 ≤ last

theorem livenessTimes_append (n : NodeId) (acts acts' : List NotifyAction) :
    livenessTimes n (acts ++ acts') = livenessTimes n acts ++ livenessTimes n acts' := by
  simp [livenessTimes, rowsOf]

namespace InReplay

variable {n : NodeId} {last t : UnixMs} {st : AlertManager × List NotifyAction} {sp : Stretches}
  {x : Atom}

section

variable (h : InReplay n last (st, sp))

include h

/-- Every liveness alert was opened by a result. -/
theorem alert_le {a : Alert} (ha : st.1.active (livenessCheck n) = some a) : a.atUnixMs ≤ last :=
  h.past _ (h.told.open_mem (by rw [h.isOpen, ha]; rfl))

/-- A liveness observation, of this node or of another one. -/
theorem liveness (hx : AtomOk st.1 x) (hlive : x.IsLiveness t) (hlast : last < t) :
    InReplay n t (logged atomStep st x,
      sp.observe t ((logged atomStep st x).1.active (livenessCheck n)).isSome) := by
  have hmove := (atom_effect (P := fun _ a => a.notifyHeldUntil = none) h.followed.consistent hx
    h.followed.opensUnheld).1 (livenessCheck n)
  have htime := h.followed.liveness_time hx hlive n
  obtain ⟨htold, hopen⟩ := h.told.move h.isOpen hmove (h.followed.unheld _)
    (fun row hrow => (h.past row hrow).trans_lt hlast) htime
  refine ⟨h.followed.poll_atom hx (.inr hlive), ?_, hopen, ?_⟩
  · rw [logged, livenessTimes_append]
    exact htold
  · rw [logged, livenessTimes_append]
    intro row hrow
    rcases mem_append.1 hrow with hrow | hrow
    · exact ((h.past row hrow).trans_lt hlast).le
    · obtain ⟨y, hy, rfl⟩ := mem_map.1 hrow
      rcases hmove.row_mem hy with hb | hb
      · exact ((h.alert_le hb).trans_lt hlast).le
      · show y.1.atUnixMs ≤ t
        rw [htime _ hb]
        cases ha : st.1.active (livenessCheck n) with
        | none => exact le_rfl
        | some a => exact ((h.alert_le ha).trans_lt hlast).le

/-- A sample. -/
theorem sample (hsample : x.IsSample) : InReplay n last (logged atomStep st x, sp) := by
  have hx := hsample.ok st.1
  have hactive := active_of_entries (atom_entries (s := st.1) (hsample.alone n))
  have hquiet : rowsOf (livenessCheck n) (atomStep st.1 x).2 = [] :=
    congrArg (filterMap historyRow) (atom_quiet h.followed.consistent hx (hsample.alone n))
  have hrows : livenessTimes n (logged atomStep st x).2 = livenessTimes n st.2 := by
    rw [logged, livenessTimes_append]
    simp [livenessTimes, hquiet]
  refine ⟨h.followed.poll_atom (t := last) hx (.inl hsample), ?_, ?_, ?_⟩
  · rw [hrows]
    exact h.told
  · exact h.isOpen.trans (by rw [logged, hactive])
  · rw [hrows]
    exact h.past

theorem samples {l : List Atom} (hl : ∀ x ∈ l, x.IsSample) :
    InReplay n last (l.foldl (logged atomStep) st, sp) := by
  induction l generalizing st with
  | nil => exact h
  | cons x rest ih =>
    exact ih (h.sample (hl x mem_cons_self)) fun y hy => hl y (mem_cons_of_mem x hy)

theorem mono (hle : last ≤ t) : InReplay n t (st, sp) :=
  ⟨h.followed, h.told, h.isOpen, fun row hrow => (h.past row hrow).trans hle⟩

/-- Whether there is an alert is in the stretches. -/
theorem active_isSome : (st.1.active (livenessCheck n)).isSome = sp.isOpen.isSome := by
  rw [h.isOpen, Option.isSome_map]

end

end InReplay

variable {s : AlertManager} {last : UnixMs}

/-- A poll result is its liveness observation, if it makes one, and samples. -/
theorem poll_atoms (h : s.Followed) (p : Poll) (hrule : (s.livenessDwell p.result.nodeId).isSome) :
    ∃ samples, (∀ x ∈ samples, x.IsSample) ∧
      (p.op.atoms s = samples ∨ ∃ x, x.IsLiveness p.time ∧ p.op.atoms s = x :: samples) := by
  obtain ⟨samples, hsamples, he⟩ :=
    observeAtoms_split skipHealthy s p.order p.result p.noReading
  have hplain := plain_atoms h.watching.config (show p.op.Plain from trivial)
  rw [Poll.op, Op.atoms, he] at hplain
  refine ⟨samples, hsamples, ?_⟩
  rw [Poll.op, Op.atoms, he]
  split
  · exact .inl rfl
  next hpaused =>
    rw [if_neg hpaused] at hplain
    unfold livenessAtoms at hplain ⊢
    split
    · exact .inl rfl
    next hobs =>
      rw [if_neg hobs] at hplain
      have hraw := hplain _ (mem_append_left _ (mem_singleton_self _)) rfl
      exact .inr ⟨_, .mk rfl hrule hraw, rfl⟩

variable {st : (AlertManager × List NotifyAction) × Stretches}

/-- A poll result keeps the rows of a node in step with its stretches. -/
theorem InReplay.poll {p : Poll} (h : InReplay n last st) (hop : p.op.Ok st.1.1)
    (hrule : (st.1.1.livenessDwell p.result.nodeId).isSome) (hlast : last < p.time) :
    InReplay n p.time (followPoll n st p) := by
  obtain ⟨st, sp⟩ := st
  have hstep : logged step st p.op = (p.op.atoms st.1).foldl (logged atomStep) st := by
    rw [logged, step_eq_atoms, ← foldl_logged]
  unfold followPoll
  rw [hstep]
  obtain ⟨samples, hsamples, he | ⟨x, hlive, he⟩⟩ := poll_atoms h.followed p hrule <;> rw [he]
  · have hrun := (h.mono hlast.le).samples hsamples
    rw [hrun.active_isSome, Stretches.observe_isOpen]
    exact hrun
  · have hx := atomOk_atoms hop
    rw [he] at hx
    have hfirst := h.liveness hx.1 hlive hlast
    have hrun := hfirst.samples hsamples
    rw [foldl_cons, hrun.active_isSome, ← hfirst.active_isSome]
    exact hrun

theorem followed_start {config : AlertConfig} (hloaded : config.loaded = true)
    (hwait : ∀ n, config.groupingWait = false ∨ config.grouping.levelOf n = .off)
    (hmaint : config.maintenance = ∅) :
    (fresh.step (.setConfig config hloaded)).1.Followed := by
  have hx : AtomOk fresh (.setConfig config) := hloaded
  have hwatching : fresh.Watching := restored_watching noRows_ok
  exact {
    consistent := atom_consistent consistent_fresh hx
    sound := atom_livenessSound consistent_fresh hx trivial livenessSound_fresh
    breaches := fun _ _ ha => absurd ha (by simp [step, setConfig, fresh])
    watching := atom_watching hx hmaint hwatching
    tracked := fun _ hn => absurd hn (by simp [step, setConfig, fresh])
    loaded := hloaded
    waitless := hwait
    unheld := fun _ _ ha => absurd ha (by simp [step, setConfig, fresh])
    alerted := fun n hn => absurd hn (by simp [step, setConfig, fresh, committedAt]) }

theorem poll_config (s : AlertManager) (p : Poll) : (s.step p.op).1.config = s.config := by
  rw [step_eq_atoms]
  refine emitAll_frame (π := AlertManager.config) atomStep (fun s' x hx => atom_config ?_) s
  exact keepsConfig_of_mem (fun _ _ h => absurd h (by simp [Poll.op])) hx

variable {polls : List Poll}

/-- Every run of poll results keeps the rows of a node in step with its stretches. -/
theorem inReplay_run (h : InReplay n last st)
    (hok : Along (fun s op => op.Ok s) step st.1.1 (polls.map Poll.op))
    (hrule : ∀ p ∈ polls, (st.1.1.livenessDwell p.result.nodeId).isSome)
    (hlast : ∀ p ∈ polls, last < p.time) (hincreasing : polls.Pairwise fun p q => p.time < q.time) :
    ∃ last', InReplay n last' (polls.foldl (followPoll n) st) := by
  induction polls generalizing st last with
  | nil => exact ⟨last, h⟩
  | cons p rest ih =>
    obtain ⟨hfirst, hrest⟩ := pairwise_cons.1 hincreasing
    have hpoll := h.poll hok.1 (hrule p mem_cons_self) (hlast p mem_cons_self)
    refine ih hpoll hok.2 (fun q hq => ?_) hfirst hrest
    have hconfig : (followPoll n st p).1.1.config = st.1.1.config := poll_config st.1.1 p
    rw [livenessDwell, hconfig]
    exact hrule q (mem_cons_of_mem p hq)

/-- The stretches are kept beside the run. -/
theorem foldl_followPoll_fst (n : NodeId) (polls : List Poll) (s : AlertManager)
    (acts : List NotifyAction) (sp : Stretches) :
    (polls.foldl (followPoll n) ((s, acts), sp)).1
      = ((emitAll step s (polls.map Poll.op)).1,
          acts ++ (emitAll step s (polls.map Poll.op)).2) := by
  induction polls generalizing s acts sp with
  | nil => simp
  | cons p rest ih =>
    rw [foldl_cons, followPoll, logged, ih]
    simp

/-- The stretches of the liveness alert of a node in a run. -/
def stretchesOf (n : NodeId) (s : AlertManager) (polls : List Poll) : Stretches :=
  (polls.foldl (followPoll n) ((s, []), ⟨[], none⟩)).2

theorem inReplay_polls (hs : s.Followed) (hnone : ∀ c, s.active c = none)
    (hok : Along (fun s op => op.Ok s) step s (polls.map Poll.op))
    (hrule : ∀ p ∈ polls, (s.livenessDwell p.result.nodeId).isSome)
    (hincreasing : polls.Pairwise fun p q => p.time < q.time) (n : NodeId) :
    ∃ last, InReplay n last (emitAll step s (polls.map Poll.op), stretchesOf n s polls) := by
  have hstart : ∀ last, InReplay n last ((s, []), ⟨[], none⟩) := by
    intro last
    refine ⟨hs, .start, ?_, fun _ hrow => absurd hrow not_mem_nil⟩
    rw [hnone]
    rfl
  have hrun : ∃ last, InReplay n last (polls.foldl (followPoll n) ((s, []), ⟨[], none⟩)) := by
    cases polls with
    | nil => exact ⟨0, hstart 0⟩
    | cons p rest =>
      -- The run begins after any moment before its first result.
      refine inReplay_run (hstart (p.time - 1)) hok hrule (fun q hq => ?_) hincreasing
      rcases mem_cons.1 hq with rfl | hq
      · exact sub_one_lt _
      · exact (sub_one_lt _).trans ((pairwise_cons.1 hincreasing).1 q hq)
  have hfst : (polls.foldl (followPoll n) ((s, []), ⟨[], none⟩)).1
      = emitAll step s (polls.map Poll.op) := by
    rw [foldl_followPoll_fst, nil_append]
  rw [← hfst]
  exact hrun

end AlertManager

/-! ### Reading the rows back -/

/-- The alerts in the rows of a path are filed under its check. -/
theorem Path.row_filed (h : Path P c b acts b') (hb : Filed c b) :
    ∀ x ∈ acts.filterMap historyRow, SlotOk c x.1 := by
  induction h with
  | refl => exact fun _ hx => absurd hx not_mem_nil
  | step hm _ ih =>
    intro x hx
    rw [filterMap_append] at hx
    rcases mem_append.1 hx with hx | hx
    · exact (hm.row_mem hx).elim (hb x.1) (hm.filed hb x.1)
    · exact ih (hm.filed hb) x hx

/-- The stamps do not matter to what is read of a row. -/
theorem filterMap_historyOf {β : Type} {f : HistoryRow → Option β} {g : Alert × Bool → Option β}
    (h : ∀ id now x, f (.ofAlert id now x.1 x.2) = g x) (stamp : Nat → Uuid × UnixMs)
    (acts : List NotifyAction) :
    (historyOf stamp acts).filterMap f = (acts.filterMap historyRow).filterMap g := by
  rw [historyOf, mapIdx_eq_zipIdx_map, filterMap_map]
  conv_rhs => rw [← zipIdx_map_fst 0 (acts.filterMap historyRow), filterMap_map]
  exact filterMap_congr fun p _ => h _ _ p.1

/-- What the replay reads of an alert's row for a node. -/
def readFor (n : NodeId) (sinceMs : UnixMs) (x : Alert × Bool) : Option (NodeId × UnixMs × Bool) :=
  if x.1.subject.asNode = some n ∧ metricColumn x.1 = some .liveness ∧ sinceMs ≤ x.1.atUnixMs then
    some (n, rowTime x)
  else none

theorem readFor_eq (h : SlotOk x.1.check x.1) :
    readFor n sinceMs x =
      if x.1.check = livenessCheck n ∧ sinceMs ≤ x.1.atUnixMs then some (n, rowTime x)
      else none := by
  have hiff : x.1.subject.asNode = some n ∧ metricColumn x.1 = some .liveness ↔
      x.1.check = livenessCheck n := by
    constructor
    · rintro ⟨hnode, hmetric⟩
      have hm : x.1.metric = .liveness := by
        unfold metricColumn at hmetric
        split at hmetric
        · cases hmetric
        · exact Option.some.inj hmetric
      obtain ⟨m, hm⟩ := h.shape (h.liveness.1 hm)
      rw [h.subject, hm] at hnode
      rw [hm, Option.some.inj (show some m = some n from hnode)]
    · intro hc
      have hm : x.1.metric = .liveness := h.liveness.2 (by rw [hc]; rfl)
      rw [h.subject, hc, metricColumn, hm]
      exact ⟨rfl, rfl⟩
  simp only [readFor, ← and_assoc, hiff]

/-- What is read of one row. -/
def rowFor (n : NodeId) (r : HistoryRow) : Option (NodeId × UnixMs × Bool) :=
  (r.subject.asNode.map fun m => (m, r.atUnixMs, r.resolved)).filter fun row => decide (row.1 = n)

theorem rowFor_some {r : HistoryRow} {row : NodeId × UnixMs × Bool} (h : rowFor n r = some row) :
    row = (n, r.atUnixMs, r.resolved) := by
  obtain ⟨h, hn⟩ := Option.filter_eq_some_iff.1 h
  obtain ⟨m, -, rfl⟩ := Option.map_eq_some_iff.1 h
  rw [← of_decide_eq_true hn]

/-- What the statement selects for a node, in the order it was written. -/
theorem filterMap_livenessFrom (hfiled : ∀ c, ∀ x ∈ rowsOf c acts, SlotOk c x.1) :
    ((historyOf stamp acts).livenessFrom sinceMs).filterMap (rowFor n)
      = ((livenessTimes n acts).filter fun row => decide (sinceMs ≤ row.1)).map
          fun row => (n, row) := by
  have hread : ∀ id now (x : Alert × Bool),
      (if ((HistoryRow.ofAlert id now x.1 x.2).subject.asNode.isSome
          && decide ((HistoryRow.ofAlert id now x.1 x.2).metric = some .liveness)
          && decide (sinceMs ≤ (HistoryRow.ofAlert id now x.1 x.2).atUnixMs)) = true then
        rowFor n (.ofAlert id now x.1 x.2) else none) = readFor n sinceMs x := by
    intro id now x
    simp only [HistoryRow.ofAlert, readFor, rowFor, rowTime]
    rcases Option.eq_none_or_eq_some x.1.subject.asNode with hnode | ⟨m, hnode⟩
    · simp [hnode]
    · by_cases hm : m = n <;> by_cases hl : metricColumn x.1 = some .liveness <;>
        by_cases ht : sinceMs ≤ x.1.atUnixMs <;> simp [hnode, hm, hl, ht, Option.filter]
  rw [HistoryTable.livenessFrom, filterMap_filter, filterMap_historyOf hread, livenessTimes,
    rowsOf_eq, filter_map, map_map, filter_filter, ← filterMap_eq_map,
    filterMap_filter]
  refine filterMap_congr fun x hx => ?_
  rw [readFor_eq (hfiled _ x (mem_rowsOf.2 ⟨hx, rfl⟩))]
  by_cases hc : x.1.check = livenessCheck n <;> by_cases ht : sinceMs ≤ x.1.atUnixMs <;>
    simp [rowTime, hc, ht]

/-- The rows that are read back for a node are its own, in the order they were written. -/
theorem livenessSince_node {limit : Nat} {rows : List (NodeId × UnixMs × Bool)}
    (hfiled : ∀ c, ∀ x ∈ rowsOf c acts, SlotOk c x.1)
    (hsorted : (livenessTimes n acts).Pairwise fun a b => toLex a ≤ toLex b)
    (hrows : (historyOf stamp acts).LivenessSince sinceMs limit rows)
    (hlimit : ((historyOf stamp acts).livenessFrom sinceMs).length ≤ max limit 1) :
    rows.filter (fun row => decide (row.1 = n))
      = ((livenessTimes n acts).filter fun row => decide (sinceMs ≤ row.1)).map
          fun row => (n, row) := by
  obtain ⟨-, ⟨ordered, hperm, hordered, rfl⟩, rfl⟩ := hrows
  rw [take_of_length_le (by rw [hperm.length_eq]; exact hlimit), filter_filterMap]
  have hread : (ordered.filterMap (rowFor n)).Perm
      (((livenessTimes n acts).filter fun row => decide (sinceMs ≤ row.1)).map
        fun row => (n, row)) := by
    rw [← filterMap_livenessFrom hfiled]
    exact hperm.filterMap _
  have hreadSorted : (ordered.filterMap (rowFor n)).Pairwise fun a b => toLex a.2 ≤ toLex b.2 := by
    rw [pairwise_filterMap]
    refine hordered.imp fun hle a ha b hb => ?_
    rw [rowFor_some ha, rowFor_some hb]
    exact hle
  refine hread.eq_of_pairwise (fun a b ha hb hab hba => ?_) hreadSorted
    (pairwise_map.2 (hsorted.filter _))
  -- Rows of one node with the same key are the same.
  obtain ⟨r, -, hr⟩ := mem_filterMap.1 ha
  obtain ⟨row, -, rfl⟩ := mem_map.1 hb
  rw [rowFor_some hr] at hab hba ⊢
  exact congrArg (Prod.mk n) (toLex_inj.1 (le_antisymm hab hba))

/-! ### The replay of a run -/

namespace AlertManager

/-- What the replay makes of the rows that tell the stretches of a node. -/
theorem InReplay.reported {last : UnixMs} {s : AlertManager} (h : InReplay n last ((s, acts), sp))
    {rows : List (NodeId × UnixMs × Bool)} (hrows : rows.filter (fun row => decide (row.1 = n))
      = ((livenessTimes n acts).filter fun row => decide (sinceMs ≤ row.1)).map
          fun row => (n, row)) :
    (outagesFromRows rows sinceMs s.down).filter (fun o => decide (o.node = n))
      = sp.reported n sinceMs := by
  have hreplayed := h.told.replayed n sinceMs
  have hview : (rows.foldl (row sinceMs) ⟨∅, []⟩).view n
      = (ofNode n sinceMs (livenessTimes n acts)).view n := by
    rw [view_foldl, hrows]
    rfl
  have houtages : ((ofNode n sinceMs (livenessTimes n acts)).view n).2
      = (sp.ended.filter fun iv => decide (sinceMs ≤ iv.1)).map fun iv => ⟨n, iv.1, some iv.1⟩ := by
    rw [view, hreplayed.outages, filter_eq_self]
    intro o ho
    obtain ⟨iv, -, rfl⟩ := mem_map.1 ho
    simp
  rw [outagesFromRows_node, hview, houtages, append_assoc]
  refine congrArg _ ?_
  simp only [view, h.followed.mem_down n, h.active_isSome]
  cases hopen : sp.isOpen with
  | none => simp [hreplayed.closed hopen]
  | some t =>
    rw [hreplayed.slot t hopen]
    rcases lt_or_ge t sinceMs with ht | ht
    · simp [Stretches.clip, ht, not_le.2 ht]
    · simp [Stretches.clip, ht, not_lt.2 ht]

/-- The replay is exact for a node none of whose outages ended inside the window: in every run of
poll results with increasing times, under a loaded configuration without holds and maintenance and
with a liveness rule for every node, its outages are those in which its liveness alert was open. -/
theorem outagesFromRows_exact {config : AlertConfig} (hloaded : config.loaded = true)
    (hwait : ∀ n, config.groupingWait = false ∨ config.grouping.levelOf n = .off)
    (hmaint : config.maintenance = ∅) {polls : List Poll}
    (hrule : ∀ p ∈ polls, (config.resolve p.result.nodeId none none .liveness).isSome)
    (hok : Along (fun s op => op.Ok s) step (fresh.step (.setConfig config hloaded)).1
      (polls.map Poll.op))
    (hincreasing : polls.Pairwise fun p q => p.time < q.time) (stamp : Nat → Uuid × UnixMs)
    {sinceMs : UnixMs} {limit : Nat} {rows : List (NodeId × UnixMs × Bool)}
    (hrows : (historyOf stamp (emitAll step (fresh.step (.setConfig config hloaded)).1
      (polls.map Poll.op)).2).LivenessSince sinceMs limit rows)
    (hlimit : ((historyOf stamp (emitAll step (fresh.step (.setConfig config hloaded)).1
      (polls.map Poll.op)).2).livenessFrom sinceMs).length ≤ max limit 1)
    (n : NodeId)
    (hended : ∀ iv ∈ (stretchesOf n (fresh.step (.setConfig config hloaded)).1 polls).ended,
      iv.2 ≤ sinceMs) :
    (outagesFromRows rows sinceMs (emitAll step (fresh.step (.setConfig config hloaded)).1
        (polls.map Poll.op)).1.down).filter (fun o => decide (o.node = n))
      = (stretchesOf n (fresh.step (.setConfig config hloaded)).1 polls).inside n sinceMs := by
  have hstart := followed_start hloaded hwait hmaint
  have hnone : ∀ c, (fresh.step (.setConfig config hloaded)).1.active c = none := fun _ => rfl
  have hconfig : (fresh.step (.setConfig config hloaded)).1.config = config := rfl
  generalize (fresh.step (.setConfig config hloaded)).1 = s at *
  have hrule' : ∀ p ∈ polls, (s.livenessDwell p.result.nodeId).isSome := by
    intro p hp
    rw [livenessDwell, hconfig, Option.isSome_map]
    exact hrule p hp
  obtain ⟨last, hrun⟩ := inReplay_polls hstart hnone hok hrule' hincreasing n
  obtain ⟨hpaths, -⟩ := run_effect (P := fun _ _ => True) hstart.consistent hok
    (Along.of_forall (fun _ _ _ => Along.of_forall (fun _ _ _ _ _ _ => trivial) _) _)
  have hfiled : ∀ c, ∀ x ∈ rowsOf c (emitAll step s (polls.map Poll.op)).2, SlotOk c x.1 :=
    fun c => (hpaths c).row_filed (hstart.consistent.slots c)
  rw [Stretches.inside_eq_reported hrun.told.forward hended]
  exact hrun.reported (livenessSince_node hfiled hrun.told.sorted hrows hlimit)

/-! ### Two runs -/

/-- Results of node 1. -/
def pollsOf (outcomes : List (CheckOutcome × UnixMs)) : List Poll :=
  outcomes.map fun o => ⟨poll 1 o.1 o.2, [], bothLiveness⟩

/-- A liveness rule for both nodes. -/
def replayConfig : AlertConfig := AlertConfig.new [livenessRule 1] [plainNode 1, plainNode 2]

/-- The engine with that configuration. -/
def replayStart : AlertManager := (fresh.step (.setConfig replayConfig rfl)).1

/-- The table after a run from there. -/
def replayTable (polls : List Poll) : HistoryTable :=
  historyOf numbered (emitAll step replayStart (polls.map Poll.op)).2

/-- A statement may return the rows as they were written when they are in order. -/
theorem livenessSince_of_sorted (table : HistoryTable) {limit : Nat}
    (hsorted : (table.livenessFrom sinceMs).Pairwise fun a b => a.timeKey ≤ b.timeKey) :
    table.LivenessSince sinceMs limit (((table.livenessFrom sinceMs).take (max limit 1)).filterMap
      fun r => r.subject.asNode.map fun n => (n, r.atUnixMs, r.resolved)) :=
  ⟨_, ⟨_, .refl _, hsorted, rfl⟩, rfl⟩

theorem ok_of_replay_run (polls : List Poll)
    (h : Along (Within bothLiveness) step replayStart (polls.map Poll.op)) :
    Along (fun s op => op.Ok s) step replayStart (polls.map Poll.op) :=
  ok_of_within (by decide) (followed_start rfl (fun _ => .inl rfl) rfl).consistent
    (fun c hc => absurd hc (by simp [step, setConfig, fresh])) h

/-- Node 1 recovers before the window and is down again inside it. -/
def downAgainPolls : List Poll :=
  pollsOf [(.unreachable, 10), (.reachable, 20), (.unreachable, 40)]

theorem outagesFromRows_exact_down_again :
    (outagesFromRows [(1, 40, false)] 30
        (emitAll step replayStart (downAgainPolls.map Poll.op)).1.down).filter
          (fun o => decide (o.node = 1))
      = (stretchesOf 1 replayStart downAgainPolls).inside 1 30 := by
  have hok := ok_of_replay_run downAgainPolls (by decide +kernel)
  have hrows : (replayTable downAgainPolls).LivenessSince 30 10 [(1, 40, false)] :=
    livenessSince_of_sorted (replayTable downAgainPolls) (by decide +kernel)
  exact outagesFromRows_exact rfl (fun _ => .inl rfl) rfl (by decide +kernel) hok
    (by decide +kernel) numbered hrows (by decide +kernel) 1 (by decide +kernel)

/-- Node 1 goes down and recovers. -/
def recoveredPolls : List Poll := pollsOf [(.unreachable, 10), (.reachable, 20)]

/-- The node was down from 10 to 20. Seen from 5 on, its outage has no length, and seen from 15 on
there was none. -/
theorem ended_outages_misread :
    Along (fun s op => op.Ok s) step replayStart (recoveredPolls.map Poll.op) ∧
    (recoveredPolls.Pairwise fun p q => p.time < q.time) ∧
    ((replayTable recoveredPolls).LivenessSince 5 10 [(1, 10, false), (1, 10, true)] ∧
      outagesFromRows [(1, 10, false), (1, 10, true)] 5
        (emitAll step replayStart (recoveredPolls.map Poll.op)).1.down = [⟨1, 10, some 10⟩] ∧
      (stretchesOf 1 replayStart recoveredPolls).inside 1 5 = [⟨1, 10, some 20⟩]) ∧
    ((replayTable recoveredPolls).LivenessSince 15 10 [] ∧
      outagesFromRows [] 15 (emitAll step replayStart (recoveredPolls.map Poll.op)).1.down = [] ∧
      (stretchesOf 1 replayStart recoveredPolls).inside 1 15 = [⟨1, 14, some 20⟩]) :=
  ⟨ok_of_replay_run recoveredPolls (by decide +kernel), by decide +kernel,
    ⟨livenessSince_of_sorted (replayTable recoveredPolls) (by decide +kernel), by decide +kernel,
      by decide +kernel⟩,
    livenessSince_of_sorted (replayTable recoveredPolls) (by decide +kernel), by decide +kernel,
    by decide +kernel⟩

end AlertManager

end Yagra
