import Yagra.Proofs.Resolution

/-!
# `Yagra.Proofs.Shown`: what the operator is shown is what is enforced

The list of the rules of a port finds the winning level and the nearest folder with a pass of its
own. `shown_is_enforced` says that it finds what the engine finds through its index: the rules
flagged on a metric, merged, are the threshold the port is judged by.

Both start from the rules on the metric that reach the port, so two ways to cut that list down are
compared (`resolveMatched_eq`). A rule with a row pattern reaches no port, so the preference for
such rules plays no part.
-/

set_option autoImplicit false

namespace Yagra

open Yagra.Lib MetricRules List

/-- Rules on a metric, merged. -/
def mergeRules (metric : CheckName) (inForce : List StoredThreshold) : Option EffectiveThreshold :=
  if inForce = [] then none
  else some ⟨metric, inForce.foldl (fun b t => b.restrictiveWith t.rule.bounds) .none,
    inForce.foldl (fun d t => max d t.rule.dwellSamples) 0⟩

/-- The rules on a metric that are flagged. -/
def flaggedOn (flagged : List (StoredThreshold × Bool)) (metric : CheckName) :
    List StoredThreshold :=
  (flagged.filter fun e => e.2 && decide (e.1.rule.metric = metric)).map Prod.fst

variable {matched : List StoredThreshold} {nodeMeta : Option NodeMeta} {metric : CheckName}

/-- Only folders farther than the nearest one are left out, so the winning level stays. -/
theorem winningLevel_near
    (hfolder : ∀ t ∈ matched, t.level = .folderGroup → (folderDepth t nodeMeta).isSome) :
    winningLevel ((matched.filter fun t => decide (t.level ≠ .folderGroup) ||
        decide (folderDepth t nodeMeta = nearestFolderDepth matched nodeMeta)).map (·.level))
      = winningLevel (matched.map (·.level)) := by
  refine winningLevel_congr fun level => ?_
  simp only [mem_map, mem_filter, Bool.or_eq_true, decide_eq_true_eq]
  refine ⟨fun ⟨t, ht, hl⟩ => ⟨t, ht.1, hl⟩, ?_⟩
  rintro ⟨t, ht, rfl⟩
  by_cases hl : t.level = .folderGroup
  · obtain ⟨depth, hdepth⟩ := Option.isSome_iff_exists.1 (hfolder t ht hl)
    cases hnearest : nearestFolderDepth matched nodeMeta with
    | none =>
      have hnil := min?_eq_none_iff.1 hnearest
      exact absurd (mem_filterMap.2 ⟨t, ht, hdepth⟩) (hnil ▸ not_mem_nil)
    | some nearest =>
      obtain ⟨t', ht', hdepth'⟩ := mem_filterMap.1 (min?_mem hnearest)
      have hl' : t'.level = .folderGroup := by
        by_contra hne
        simp [folderDepth, hne] at hdepth'
      exact ⟨t', ⟨ht', .inr hdepth'⟩, hl'.trans hl.symm⟩
  · exact ⟨t, ⟨ht, .inl hl⟩, rfl⟩

theorem preferRowRules_of_none (h : ∀ t ∈ matched, t.rowMatch = none) :
    preferRowRules matched = matched := by
  unfold preferRowRules
  split
  · rfl
  · rw [if_neg]
    simp only [any_eq_true, Bool.and_eq_true, not_exists, not_and]
    intro t ht _
    simp [h t ht]

/-- The merge of rules on one metric, side by side. -/
theorem foldl_merge (h : ∀ t ∈ matched, t.rule.metric = metric) (acc : EffectiveThreshold) :
    matched.foldl (fun acc t =>
        { metric := t.rule.metric
          bounds := acc.bounds.restrictiveWith t.rule.bounds
          dwellSamples := max acc.dwellSamples t.rule.dwellSamples }) acc
      = ⟨if matched = [] then acc.metric else metric,
          matched.foldl (fun b t => b.restrictiveWith t.rule.bounds) acc.bounds,
          matched.foldl (fun d t => max d t.rule.dwellSamples) acc.dwellSamples⟩ := by
  induction matched generalizing acc with
  | nil => rfl
  | cons t rest ih =>
    obtain ⟨ht, hrest⟩ := forall_mem_cons.1 h
    rw [foldl_cons, ih hrest]
    cases rest <;> simp [ht]

/-- The threshold of rules on one metric is the merge of those in force among them. -/
theorem resolveMatched_eq (hmetric : ∀ t ∈ matched, t.rule.metric = metric)
    (hrow : ∀ t ∈ matched, t.rowMatch = none)
    (hfolder : ∀ t ∈ matched, t.level = .folderGroup → (folderDepth t nodeMeta).isSome) :
    resolveMatched matched nodeMeta
      = mergeRules metric (matched.filter (inForceAmong matched nodeMeta)) := by
  have hlevel := winningLevel_near hfolder
  unfold inForceAmong
  rw [resolveMatched, ← hlevel]
  generalize hnear : (matched.filter fun t => decide (t.level ≠ .folderGroup) ||
    decide (folderDepth t nodeMeta = nearestFolderDepth matched nodeMeta)) = near
  have hsub : ∀ t ∈ near, t ∈ matched := fun t ht => (mem_filter.1 (hnear ▸ ht)).1
  -- The rules in force are those of the near ones that are at the winning level.
  have hforce : (matched.filter fun t =>
      decide (winningLevel (near.map (·.level)) = some t.level) &&
      (decide (t.level ≠ .folderGroup) ||
        decide (folderDepth t nodeMeta = nearestFolderDepth matched nodeMeta)))
      = near.filter fun t => decide (winningLevel (near.map (·.level)) = some t.level) := by
    rw [← hnear, filter_filter]
  rw [hforce, preferRowRules_of_none fun t ht => hrow t (hsub t ht), resolveEffective, map_map]
  show (winningLevel (near.map (·.level))).map _ = _
  cases hw : winningLevel (near.map (·.level)) with
  | none => simp [mergeRules]
  | some w =>
    have hne : (near.filter fun t => decide (some w = some t.level)) ≠ [] := by
      obtain ⟨t, ht, hlevel⟩ := mem_map.1 ((winningLevel_eq_some_iff _ _).1 hw).1
      exact ne_nil_of_mem (mem_filter.2 ⟨ht, by simp [hlevel]⟩)
    have hw : (near.filter fun t => decide (t.level = w))
        = near.filter fun t => decide (some w = some t.level) :=
      filter_congr fun t _ => by simp [eq_comm]
    rw [Option.map_some, filter_map, foldl_map, mergeRules, if_neg hne]
    show some ((near.filter fun t => decide (t.level = w)).foldl _ _) = _
    rw [hw, foldl_merge fun t ht => hmetric t (hsub t (mem_filter.1 ht).1), if_neg hne]

/-- The flag of a rule only looks at the rules on its metric. -/
theorem flaggedOn_flagInForce : flaggedOn (flagInForce matched nodeMeta) metric
    = (matched.filter fun t => decide (t.rule.metric = metric)).filter
        (inForceAmong (matched.filter fun t => decide (t.rule.metric = metric)) nodeMeta) := by
  rw [flaggedOn, flagInForce, filter_map, map_map, filter_filter]
  refine (map_id _).trans (filter_congr fun t _ => ?_)
  by_cases ht : t.rule.metric = metric <;> simp [ht]

/-- What the operator is shown for a port is what is enforced there. -/
theorem shown_is_enforced (rules : List StoredThreshold) (nodeMeta : List (NodeId × NodeMeta))
    (node : NodeId) (port : IfIndex) (perInterface : List CheckName) (metric : CheckName)
    (hport : metric ∈ perInterface) :
    let shown := flaggedOn
      (interfaceMatchingRules rules node port (nodeMeta.lookup node) perInterface) metric
    let enforced := (AlertConfig.new rules nodeMeta).resolve node (some port) none metric
    mergeRules metric shown = enforced ∧ (shown = [] ↔ enforced = none) := by
  have hmerge : mergeRules metric (flaggedOn
      (interfaceMatchingRules rules node port (nodeMeta.lookup node) perInterface) metric)
      = (AlertConfig.new rules nodeMeta).resolve node (some port) none metric := by
    rw [resolve_eq_reference, resolveReference, interfaceMatchingRules, matchingRules,
      flaggedOn_flagInForce]
    generalize nodeMeta.lookup node = nodeMeta
    have hreach : (((rules.filter fun t => decide (t.rule.metric ∈ perInterface)).filter fun t =>
        thresholdApplies t node (some port) none nodeMeta).filter fun t =>
          decide (t.rule.metric = metric))
        = rules.filter fun t => decide (t.rule.metric = metric) &&
            thresholdApplies t node (some port) none nodeMeta := by
      rw [filter_filter, filter_filter]
      exact filter_congr fun t _ => by grind
    rw [hreach]
    refine (resolveMatched_eq ?_ ?_ ?_).symm
    · simp +contextual
    · intro t ht
      cases hr : t.rowMatch <;> simp_all [thresholdApplies]
    · intro t ht hl
      simp_all [thresholdApplies, scopeApplies]
  refine ⟨hmerge, ?_⟩
  rw [← hmerge, mergeRules]
  split <;> simp_all

theorem shown_is_enforced_overlapping :
    mergeRules (.metric (.series "cpu"))
        (flaggedOn (interfaceMatchingRules overlappingRules 1 3 none
        [.metric (.series "cpu")]) (.metric (.series "cpu")))
      = some ⟨.metric (.series "cpu"), .above none (some (.finite 80)), 1⟩ :=
  (shown_is_enforced overlappingRules [] 1 3 _ _ (List.mem_singleton_self _)).1.trans
    (by decide +kernel)

end Yagra
