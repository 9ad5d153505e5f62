import Yagra.Proofs.Runs

/-!
# `Yagra.Proofs.Restoring`: what restoring does to an engine that has run

`restore` is documented as harmless at any time: what the engine has already observed wins.
`restore_harmless_iff` says when it is. Each of the maps is filled by insertions that keep what
is there, so the check states, the live states and the down set of what was observed always
stay, and restoring twice is restoring once. The active set is another matter. A check the
engine has seen healthy has a state and no alert, and a stored alert of such a check is inserted
beside that state. So restoring is harmless exactly when no listed alert is about a check that
has a state and no alert. `restore_over_healthy` is an engine where one is.
-/

set_option autoImplicit false

namespace Yagra

open Yagra.Lib List

namespace AlertManager

/-! ### The live states -/

section

variable (l : List Alert) (acc : (NodeId → Option NodeState) × List NodeId)

/-- The loop over the live states keeps the states that are there, and only nodes without one
are found to be down. -/
theorem seedLive_keeps :
    (∀ n, (acc.1 n).isSome → (l.foldl seedLiveOne acc).1 n = acc.1 n) ∧
      ∀ n ∈ (l.foldl seedLiveOne acc).2, n ∈ acc.2 ∨ acc.1 n = none := by
  induction l generalizing acc with
  | nil => exact ⟨fun _ _ => rfl, fun _ h => .inl h⟩
  | cons a rest ih =>
    -- One alert inserts at most the state of a node that has none.
    have hone : (∀ n, (acc.1 n).isSome → (seedLiveOne acc a).1 n = acc.1 n) ∧
        ∀ n ∈ (seedLiveOne acc a).2, n ∈ acc.2 ∨ acc.1 n = none := by
      unfold seedLiveOne
      split
      next m _ _ =>
        split
        · exact ⟨fun _ _ => rfl, fun _ h => .inl h⟩
        next hm =>
          refine ⟨fun n hn => ?_, ?_⟩
          · have hne : n ≠ m := by
              rintro rfl
              exact hm hn
            exact Function.update_of_ne hne _ _
          intro n hn
          split at hn
          · rcases mem_append.1 hn with hn | hn
            · exact .inl hn
            · rw [mem_singleton.1 hn]
              exact .inr (by simpa using hm)
          · exact .inl hn
      · exact ⟨fun _ _ => rfl, fun _ h => .inl h⟩
    obtain ⟨hkeep, hnew⟩ := ih (seedLiveOne acc a)
    refine ⟨fun n hn => ?_, fun n hn => ?_⟩
    · rw [foldl_cons, hkeep n (by rw [hone.1 n hn]; exact hn), hone.1 n hn]
    · rcases hnew n hn with h | h
      · exact hone.2 n h
      · refine .inr ?_
        by_contra hne
        have hsome := Option.ne_none_iff_isSome.1 hne
        rw [hone.1 n hsome] at h
        exact hne h

/-- After the loop every node with a liveness alert in the list has a live state. -/
theorem seedLive_covers :
    ∀ a ∈ l, a.metric = .liveness → ∀ n, a.node = some n →
      ((l.foldl seedLiveOne acc).1 n).isSome := by
  induction l generalizing acc with
  | nil => simp
  | cons b rest ih =>
    intro a ha hm n hn
    rcases mem_cons.1 ha with rfl | ha
    · have hhead : ((seedLiveOne acc a).1 n).isSome := by
        unfold seedLiveOne
        simp only [hm, hn]
        split
        · assumption
        · simp
      rw [foldl_cons, (seedLive_keeps rest (seedLiveOne acc a)).1 n hhead]
      exact hhead
    · exact ih (seedLiveOne acc b) a ha hm n hn

/-- The loop does nothing when the nodes of its liveness alerts all have a live state. -/
theorem seedLive_of_covered
    (h : ∀ a ∈ l, a.metric = .liveness → ∀ n, a.node = some n → (acc.1 n).isSome) :
    l.foldl seedLiveOne acc = acc := by
  induction l with
  | nil => rfl
  | cons a rest ih =>
    have hone : seedLiveOne acc a = acc := by
      unfold seedLiveOne
      split
      next n hm hn => rw [if_pos (h a mem_cons_self hm n hn)]
      · rfl
    rw [foldl_cons, hone]
    exact ih fun b hb => h b (mem_cons_of_mem a hb)

end

/-! ### The whole state -/

/-- What was observed stays: a check with a state is as it was, a live node too, and restoring
the same list again changes nothing. -/
structure Harmless (s : AlertManager) (l : List Alert) : Prop where
  checks : ∀ c cs, s.states c = some cs →
    (s.restore l).states c = some cs ∧ (s.restore l).active c = s.active c
  nodes : ∀ n st, s.live n = some st →
    (s.restore l).live n = some st ∧ (n ∈ (s.restore l).down ↔ n ∈ s.down)
  again : (s.restore l).restore l = s.restore l

variable (s : AlertManager) (l : List Alert)

theorem restore_states (c : CheckId) :
    (s.restore l).states c = (s.states c <|> (l.find? fun a => a.check = c).map restoredState) := by
  unfold restore
  split
  next h => simp [isEmpty_iff.1 h]
  · exact foldl_orInsert Alert.check restoredState l s.states c

/-- The alert a listed one is inserted as. -/
def restoredAs (s : AlertManager) (l : List Alert) (a : Alert) : Alert :=
  let down := ((s.seedStates l).seedLive l).down
  { a with rootCause := restoredRootCause (s.config.grouping.attributeDown down) down a }

theorem restore_active (c : CheckId) :
    (s.restore l).active c
      = (s.active c <|> (l.find? fun a => a.check = c).map (s.restoredAs l)) := by
  unfold restore
  split
  next h => simp [isEmpty_iff.1 h]
  · exact foldl_orInsert Alert.check (s.restoredAs l) l s.active c

theorem restore_live :
    (s.restore l).live = (l.foldl seedLiveOne (s.live, [])).1 ∧
      (s.restore l).down = s.down.extend (l.foldl seedLiveOne (s.live, [])).2 := by
  unfold restore
  split
  next h => simp [isEmpty_iff.1 h, OrdSet.extend]
  · exact ⟨rfl, rfl⟩

/-- Every listed check has a state and an alert after restoring. -/
theorem restore_covers {s : AlertManager} {l : List Alert} {a : Alert} (ha : a ∈ l) :
    ((s.restore l).states a.check).isSome ∧ ((s.restore l).active a.check).isSome := by
  have hfind : (l.find? fun b => b.check = a.check).isSome := by
    rw [find?_isSome]
    exact ⟨a, ha, by simp⟩
  rw [restore_states, restore_active]
  obtain ⟨b, hb⟩ := Option.isSome_iff_exists.1 hfind
  rw [hb]
  constructor
  · cases s.states a.check <;> rfl
  · cases s.active a.check <;> rfl

/-- An insertion that keeps what is there does nothing to a map that has the keys. -/
theorem foldl_orInsert_of_covered {ν : Type} {m : CheckId → Option ν} {l : List Alert}
    (val : Alert → ν) (h : ∀ a ∈ l, (m a.check).isSome) :
    l.foldl (fun m a => orInsert m a.check (val a)) m = m := by
  induction l with
  | nil => rfl
  | cons a rest ih =>
    rw [foldl_cons, orInsert, if_pos (h a mem_cons_self)]
    exact ih fun b hb => h b (mem_cons_of_mem a hb)

/-- Restoring a list twice is restoring it once. -/
theorem restore_restore : (s.restore l).restore l = s.restore l := by
  by_cases hempty : l.isEmpty
  · simp [restore, hempty]
  · have hcover := fun a ha => restore_covers (s := s) (l := l) (a := a) ha
    generalize hr : s.restore l = r at hcover ⊢
    -- Each of the three loops finds its keys in the restored engine already.
    have hstates : r.seedStates l = r := by
      unfold seedStates
      rw [foldl_orInsert_of_covered restoredState fun a ha => (hcover a ha).1]
      have hflags : (∀ k, (r.rowStates k || l.any (isAboutRow k)) = r.rowStates k) ∧
          ∀ c, (r.legacyNodeChecks c || l.any (isNodeWide c)) = r.legacyNodeChecks c := by
        subst hr
        simp [restore, hempty, seedActive, seedLive, seedStates]
      simp only [hflags]
    have hlive : r.seedLive l = r := by
      have hfold : l.foldl seedLiveOne (r.live, []) = (r.live, []) := by
        refine seedLive_of_covered l _ fun a ha hm n hn => ?_
        rw [← hr, (s.restore_live l).1]
        exact seedLive_covers l _ a ha hm n hn
      simp only [seedLive, hfold]
      rfl
    have hactive : r.seedActive l r.down = r := by
      simp only [seedActive]
      rw [foldl_orInsert_of_covered _ fun a ha => (hcover a ha).2]
    simp only [restore, hempty, hstates, hlive, hactive, if_false, Bool.false_eq_true]

/-- Restoring is harmless exactly when no listed alert is about a check that has a state and no
alert. -/
theorem restore_harmless_iff (s : AlertManager) (l : List Alert) :
    Harmless s l ↔ ∀ a ∈ l, (s.states a.check).isSome → (s.active a.check).isSome := by
  constructor
  · intro h a ha hstate
    obtain ⟨cs, hcs⟩ := Option.isSome_iff_exists.1 hstate
    rw [← (h.checks a.check cs hcs).2]
    exact (restore_covers ha).2
  · intro h
    refine ⟨fun c cs hcs => ⟨by rw [restore_states, hcs]; rfl, ?_⟩, fun n st hn => ?_,
      s.restore_restore l⟩
    · rw [restore_active]
      cases hactive : s.active c with
      | some b => rfl
      | none =>
        -- No listed alert is about the check, or it would have one.
        have hfind : l.find? (fun a => a.check = c) = none := by
          rw [List.find?_eq_none]
          intro a ha hac
          have hac : a.check = c := by simpa using hac
          have := h a ha (by rw [hac, hcs]; rfl)
          simp [hac, hactive] at this
        rw [hfind]
        rfl
    · obtain ⟨hkeep, hnew⟩ := seedLive_keeps l (s.live, [])
      refine ⟨?_, ?_⟩
      · rw [(s.restore_live l).1, hkeep n (by simp [hn])]
        exact hn
      · rw [(s.restore_live l).2, OrdSet.mem_extend]
        refine ⟨fun hmem => hmem.elim id fun hmem => ?_, .inl⟩
        rcases hnew n hmem with hmem | hnone
        · cases hmem
        · simp [hn] at hnone

/-- A node is seen to be up, and then its outage is restored: the check has an alert beside a
committed `ok`. -/
theorem restore_over_healthy :
    let s := (emitAll step fresh [pollOp 1 .reachable 1]).1
    (s.states (livenessCheck 1)).map CheckState.committed = some .ok ∧
    s.active (livenessCheck 1) = none ∧
    ((s.restore [alertFromRow (outageRow 1)]).active (livenessCheck 1)).isSome = true ∧
    ¬ Harmless s [alertFromRow (outageRow 1)] := by
  intro s
  have hactive : s.active (livenessCheck 1) = none := by decide +kernel
  refine ⟨by decide +kernel, hactive, by decide +kernel, fun h => ?_⟩
  have hstate : (s.states (livenessCheck 1)).isSome = true := by decide +kernel
  obtain ⟨cs, hcs⟩ := Option.isSome_iff_exists.1 hstate
  have hsame := (h.checks _ cs hcs).2
  have hsome : ((s.restore [alertFromRow (outageRow 1)]).active (livenessCheck 1)).isSome
      = true := by decide +kernel
  rw [hsame, hactive] at hsome
  simp at hsome

end AlertManager

end Yagra
