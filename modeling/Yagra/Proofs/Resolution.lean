import Yagra.Alert.Rules
import Yagra.Lib.SameMembers

/-!
# `Yagra.Proofs.Resolution`: the index answers as the rules do

`resolveReference` is what a resolution means: all rules of the metric that apply, cut down to
the nearest folder, cut down to the rules with a row pattern where there are some, and merged.
`AlertConfig.resolve` gets to the rules through an index, which files a rule under every node
or port it names. `indexed_resolve_exact` says that the two agree, and that neither depends on
the order the rules were listed in.

What the index hands to the rest differs from the reference in order, and in repetitions: a
rule that names one node twice is filed twice. So the proof goes by `SameMembers`. Every stage
after the lookup only sees which rules there are. For the merge this is because the more
restrictive of two bounds commutes and absorbs repetitions, a bound that is not a number
included.
-/

set_option autoImplicit false

namespace Yagra

open Yagra.Lib F64 StoredThreshold AlertConfig List

/-! ### The more restrictive bound -/

namespace F64

/-- The place of a number on the line, with the values that lose every `min` last. -/
def minKey : F64 → Nat ×ₗ ℚ
  | .negInf => toLex (0, 0)
  | .finite q => toLex (1, q)
  | .posInf => toLex (2, 0)
  | .nan => toLex (3, 0)

/-- The same for `max`: the values that lose every `max` come first. -/
def maxKey : F64 → Nat ×ₗ ℚ
  | .nan => toLex (0, 0)
  | .negInf => toLex (1, 0)
  | .finite q => toLex (2, q)
  | .posInf => toLex (3, 0)

theorem minKey_injective : Function.Injective minKey := by
  intro a b h
  cases a <;> cases b <;> simp_all [minKey]

theorem maxKey_injective : Function.Injective maxKey := by
  intro a b h
  cases a <;> cases b <;> simp_all [maxKey]

theorem minKey_min (a b : F64) : minKey (min a b) = Min.min (minKey a) (minKey b) := by
  cases a <;> cases b <;>
    simp only [min, le, decide_eq_true_eq, minKey, min_def, Prod.Lex.toLex_le_toLex] <;>
    split_ifs <;> grind

theorem maxKey_max (a b : F64) : maxKey (max a b) = Max.max (maxKey a) (maxKey b) := by
  cases a <;> cases b <;>
    simp only [max, le, decide_eq_true_eq, maxKey, max_def, Prod.Lex.toLex_le_toLex] <;>
    split_ifs <;> grind

end F64

namespace Direction

variable (d : Direction) (x : F64)

theorem moreRestrictive_assoc (y z : F64) :
    d.moreRestrictive (d.moreRestrictive x y) z = d.moreRestrictive x (d.moreRestrictive y z) := by
  cases d with
  | above =>
    refine minKey_injective ?_
    simp only [moreRestrictive, minKey_min, min_assoc]
  | below =>
    refine maxKey_injective ?_
    simp only [moreRestrictive, maxKey_max, max_assoc]

theorem moreRestrictive_comm (y : F64) : d.moreRestrictive x y = d.moreRestrictive y x := by
  cases d with
  | above =>
    refine minKey_injective ?_
    simp only [moreRestrictive, minKey_min, min_comm]
  | below =>
    refine maxKey_injective ?_
    simp only [moreRestrictive, maxKey_max, max_comm]

theorem moreRestrictive_self : d.moreRestrictive x x = x := by
  cases d with
  | above =>
    refine minKey_injective ?_
    simp only [moreRestrictive, minKey_min, min_self]
  | below =>
    refine maxKey_injective ?_
    simp only [moreRestrictive, maxKey_max, max_self]

theorem moreRestrictive_right_comm (z x y : F64) :
    d.moreRestrictive (d.moreRestrictive z x) y = d.moreRestrictive (d.moreRestrictive z y) x := by
  rw [moreRestrictive_assoc, moreRestrictive_comm d x, moreRestrictive_assoc]

end Direction

namespace ThresholdBounds

theorem restrictive_right_comm (z x y : Option F64) (d : Direction) :
    restrictive (restrictive z x d) y d = restrictive (restrictive z y d) x d := by
  cases z <;> cases x <;> cases y <;>
    simp [restrictive, d.moreRestrictive_right_comm, d.moreRestrictive_comm]

theorem restrictive_absorb (z x : Option F64) (d : Direction) :
    restrictive (restrictive z x d) x d = restrictive z x d := by
  cases z <;> cases x <;>
    simp [restrictive, d.moreRestrictive_assoc, d.moreRestrictive_self]

theorem restrictiveWith_right_comm (z x y : ThresholdBounds) :
    (z.restrictiveWith x).restrictiveWith y = (z.restrictiveWith y).restrictiveWith x := by
  simp only [restrictiveWith, restrictive_right_comm]

theorem restrictiveWith_absorb (z x : ThresholdBounds) :
    (z.restrictiveWith x).restrictiveWith x = z.restrictiveWith x := by
  simp only [restrictiveWith, restrictive_absorb]

end ThresholdBounds

/-! ### The stages after the lookup -/

theorem ScopeLevel.rank_injective : Function.Injective ScopeLevel.rank := by
  intro a b h
  cases a <;> cases b <;> simp_all [ScopeLevel.rank]

/-- The winning level is the most specific one that is there. -/
theorem winningLevel_eq_some_iff (l : List ScopeLevel) (w : ScopeLevel) :
    winningLevel l = some w ↔ w ∈ l ∧ ∀ x ∈ l, x.rank ≤ w.rank := by
  cases l with
  | nil => simp [winningLevel]
  | cons l rest =>
    obtain ⟨hmem, hmax⟩ := foldl_best (R := fun x y : ScopeLevel => x.rank ≤ y.rank) Nat.le_trans
      (p := fun best l => decide (best.rank ≤ l.rank)) (l := rest) (a := l)
      fun x _ y _ => by grind
    simp only [decide_eq_true_eq] at hmem hmax
    simp only [winningLevel, Option.some.injEq]
    refine ⟨fun h => h ▸ ⟨hmem, hmax⟩, fun ⟨hw, hwmax⟩ => ?_⟩
    exact ScopeLevel.rank_injective (Nat.le_antisymm (hwmax _ hmem) (hmax w hw))

theorem winningLevel_congr {l l' : List ScopeLevel} (h : SameMembers l l') :
    winningLevel l = winningLevel l' := by
  refine SameMembers.eq_of_spec winningLevel_eq_some_iff fun w => ?_
  exact and_congr (h w) (forall_congr' fun x => imp_congr_left (h x))

/-- The merge only sees which rules there are, when they are about one metric. -/
theorem resolveEffective_congr {l l' : List ScopedThreshold} (h : SameMembers l l')
    (metric : CheckName) (hmetric : ∀ r ∈ l, r.rule.metric = metric) :
    resolveEffective l = resolveEffective l' := by
  unfold resolveEffective
  rw [winningLevel_congr (h.map _)]
  congr 1
  funext winning
  refine (h.filter _).foldl_eq ?_ ?_ _
  · intro a ha b hb acc
    have hab : b.rule.metric = a.rule.metric :=
      (hmetric b (mem_filter.1 hb).1).trans (hmetric a (mem_filter.1 ha).1).symm
    simp only [ThresholdBounds.restrictiveWith_right_comm acc.bounds, hab, max_assoc,
      max_comm a.rule.dwellSamples]
  · intro a _ acc
    simp only [ThresholdBounds.restrictiveWith_absorb, max_assoc, max_self]

variable {l l' : List StoredThreshold}

theorem preferRowRules_sameMembers (h : SameMembers l l') :
    SameMembers (preferRowRules l) (preferRowRules l') := by
  unfold preferRowRules
  rw [winningLevel_congr (h.map (·.level))]
  cases winningLevel (l'.map (·.level)) with
  | none => exact h
  | some winning =>
    simp only
    rw [h.any_eq]
    split
    · exact h.filter _
    · exact h

theorem preferRowRules_subset : ∀ t ∈ preferRowRules l, t ∈ l := by
  intro t ht
  unfold preferRowRules at ht
  split at ht
  · exact ht
  · split at ht
    · exact (mem_filter.1 ht).1
    · exact ht

/-- The threshold that the rules reaching a check make: those of the nearest folder, with the
row patterns preferred, merged. -/
def resolveMatched (matched : List StoredThreshold) (nodeMeta : Option NodeMeta) :
    Option EffectiveThreshold :=
  let nearest := nearestFolderDepth matched nodeMeta
  let matched := matched.filter fun t =>
    decide (t.level ≠ .folderGroup) || decide (folderDepth t nodeMeta = nearest)
  resolveEffective ((preferRowRules matched).map fun t => ⟨t.level, t.rule⟩)

/-- The threshold only depends on which rules reach the check. -/
theorem resolveMatched_congr (h : SameMembers l l') (metric : CheckName)
    (hmetric : ∀ t ∈ l, t.rule.metric = metric) (nodeMeta : Option NodeMeta) :
    resolveMatched l nodeMeta = resolveMatched l' nodeMeta := by
  have hnearest : nearestFolderDepth l nodeMeta = nearestFolderDepth l' nodeMeta :=
    (h.filterMap _).min?_eq
  unfold resolveMatched
  rw [hnearest]
  refine resolveEffective_congr ((preferRowRules_sameMembers (h.filter _)).map _) metric ?_
  intro r hr
  obtain ⟨t, ht, rfl⟩ := mem_map.1 hr
  exact hmetric t (mem_filter.1 (preferRowRules_subset t ht)).1

/-! ### The index -/

/-- Whether the index hands a rule out for a check: a rule filed under keys is handed out for
those, and every other rule always. -/
def StoredThreshold.handedOut (t : StoredThreshold) (node : NodeId) (ifindex : Option IfIndex) :
    Bool :=
  match t.level with
  | .node =>
    match t.scopeIds.mapM ScopeId.canonicalUuid with
    | some (id :: ids) => decide (node ∈ id :: ids)
    | _ => true
  | .interface =>
    match t.scopeIds.mapM ScopeId.parseInterface with
    | some (port :: ports) => ifindex.any fun i => decide ((node, i) ∈ port :: ports)
    | _ => true
  | .global | .profile | .folderGroup => true

/-- The index hands out every rule that applies. A key is built from the same spelling the
scope test asks for, so a check the rule reaches is one of the keys. -/
theorem handedOut_of_applies {t : StoredThreshold} {node : NodeId} {ifindex : Option IfIndex}
    {rowName : Option RowText} {nodeMeta : Option NodeMeta}
    (h : thresholdApplies t node ifindex rowName nodeMeta = true) :
    t.handedOut node ifindex = true := by
  have hscope : scopeApplies t node ifindex nodeMeta = true :=
    (Bool.and_eq_true_iff.1 h).2
  unfold scopeApplies at hscope
  unfold handedOut
  cases hlevel : t.level with
  | global | profile | folderGroup => rfl
  | node =>
    simp only [hlevel, decide_eq_true_eq] at hscope ⊢
    split
    next id ids hkeys => exact decide_eq_true ((Lib.mem_of_mapM hkeys).2 ⟨_, hscope, rfl⟩)
    · rfl
  | interface =>
    simp only [hlevel] at hscope ⊢
    split
    next port ports hkeys =>
      obtain ⟨i, hi, hany⟩ := (Option.any_eq_true _ _).1 hscope
      obtain ⟨s, hs, hport⟩ := any_eq_true.1 hany
      refine (Option.any_eq_true _ _).2 ⟨i, hi, decide_eq_true ?_⟩
      exact (Lib.mem_of_mapM hkeys).2 ⟨s, hs, of_decide_eq_true hport⟩
    · rfl

namespace MetricRules

variable {x : Indexed} {m : MetricRules} {node : NodeId} {ifindex : Option IfIndex}

theorem mem_fileUnder {κ : Type} [DecidableEq κ] {f : κ → List Indexed} {keys : List κ}
    {e : Indexed} {k : κ} : x ∈ fileUnder f keys e k ↔ x ∈ f k ∨ (x = e ∧ k ∈ keys) := by
  unfold fileUnder
  induction keys generalizing f with
  | nil => simp
  | cons key rest ih =>
    rw [foldl_cons, ih, mem_cons]
    by_cases hk : k = key
    · subst hk
      simp only [Function.update_self, mem_append, mem_singleton, true_or, and_true]
      tauto
    · simp only [Function.update_of_ne hk, hk, false_or]

theorem mem_candidates :
    x ∈ m.candidates node ifindex ↔
      x ∈ m.broad ∨ x ∈ m.byNode node ∨ ∃ i, ifindex = some i ∧ x ∈ m.byPort (node, i) := by
  unfold candidates
  rw [mem_insertionSort, mem_append]
  cases ifindex <;> simp [or_assoc]

/-- Where a rule is filed, and for which checks it is handed out then. -/
theorem insert_cases (m : MetricRules) (e : Indexed) :
    (m.insert e = { m with broad := m.broad ++ [e] } ∧
      ∀ node ifindex, e.t.handedOut node ifindex = true) ∨
    (∃ ids, e.t.level = .node ∧ e.t.scopeIds.mapM ScopeId.canonicalUuid = some ids ∧
      m.insert e = { m with
        byNode := fileUnder m.byNode ids e
        nodeKeys := m.nodeKeys ∪ ids } ∧
      ∀ node ifindex, e.t.handedOut node ifindex = decide (node ∈ ids)) ∨
    ∃ ports, m.insert e = { m with
        byPort := fileUnder m.byPort ports e
        portKeys := m.portKeys ∪ ports } ∧
      ∀ node ifindex, e.t.handedOut node ifindex
        = ifindex.any fun i => decide ((node, i) ∈ ports) := by
  cases hlevel : e.t.level with
  | global | profile | folderGroup => simp [insert, handedOut, hlevel]
  | node =>
    rcases hkeys : e.t.scopeIds.mapM ScopeId.canonicalUuid with _ | _ | ⟨id, ids⟩
    · simp [insert, handedOut, hlevel, hkeys]
    · simp [insert, handedOut, hlevel, hkeys]
    · exact .inr (.inl ⟨id :: ids, rfl, rfl, by simp [insert, hlevel, hkeys],
        by simp [handedOut, hlevel, hkeys]⟩)
  | interface =>
    rcases hkeys : e.t.scopeIds.mapM ScopeId.parseInterface with _ | _ | ⟨port, ports⟩
    · simp [insert, handedOut, hlevel, hkeys]
    · simp [insert, handedOut, hlevel, hkeys]
    · exact .inr (.inr ⟨port :: ports, by simp [insert, hlevel, hkeys],
        by simp [handedOut, hlevel, hkeys]⟩)

/-- Filing a rule adds it to what is handed out for the checks it is filed for. -/
theorem mem_candidates_insert {e : Indexed} :
    x ∈ (m.insert e).candidates node ifindex ↔
      x ∈ m.candidates node ifindex ∨ (x = e ∧ e.t.handedOut node ifindex = true) := by
  rcases m.insert_cases e with ⟨he, hout⟩ | ⟨ids, -, -, he, hout⟩ | ⟨ports, he, hout⟩ <;>
    rw [he, hout, mem_candidates, mem_candidates]
  · grind
  · simp only [mem_fileUnder, decide_eq_true_eq]
    grind
  · simp only [mem_fileUnder, Option.any_eq_true, decide_eq_true_eq]
    grind

end MetricRules

namespace AlertConfig

/-- The rules the index of a configuration hands out for a check. -/
def handedOut (c : AlertConfig) (node : NodeId) (ifindex : Option IfIndex) (metric : CheckName) :
    List StoredThreshold :=
  (((c.byMetric metric).getD .empty).candidates node ifindex).map Indexed.t

/-- The index of the rules hands out the rules of the metric that are filed for the check. -/
theorem mem_handedOut_new {rules : List StoredThreshold} {nodeMeta : List (NodeId × NodeMeta)}
    {node : NodeId} {ifindex : Option IfIndex} {metric : CheckName} {t : StoredThreshold} :
    t ∈ (new rules nodeMeta).handedOut node ifindex metric ↔
      t ∈ rules ∧ t.rule.metric = metric ∧ t.handedOut node ifindex = true := by
  -- Induction over the loop that files the rules, from any index it may have reached.
  have hfold : ∀ (l : List (StoredThreshold × Nat)) (f : CheckName → Option MetricRules),
      (∃ x, x ∈ (((l.foldl (fun (f : CheckName → Option MetricRules) p =>
          Function.update f p.1.rule.metric
            (some (((f p.1.rule.metric).getD .empty).insert ⟨min p.2 u32Max, p.1⟩))) f) metric).getD
              .empty).candidates node ifindex ∧ x.t = t) ↔
        (∃ x, x ∈ ((f metric).getD .empty).candidates node ifindex ∧ x.t = t) ∨
          ((∃ seq, (t, seq) ∈ l) ∧ t.rule.metric = metric ∧ t.handedOut node ifindex = true) := by
    intro l
    induction l with
    | nil => simp
    | cons p rest ih =>
      intro f
      obtain ⟨u, seq⟩ := p
      rw [foldl_cons, ih]
      by_cases hm : metric = u.rule.metric
      · subst hm
        simp only [Function.update_self, Option.getD_some, MetricRules.mem_candidates_insert,
          mem_cons, Prod.mk.injEq]
        constructor
        · rintro (⟨x, hx | ⟨rfl, hout⟩, rfl⟩ | ⟨⟨i, hi⟩, h⟩)
          · exact .inl ⟨x, hx, rfl⟩
          · exact .inr ⟨⟨seq, .inl ⟨rfl, rfl⟩⟩, rfl, hout⟩
          · exact .inr ⟨⟨i, .inr hi⟩, h⟩
        · rintro (⟨x, hx, rfl⟩ | ⟨⟨i, ⟨rfl, rfl⟩ | hi⟩, hmetric, hout⟩)
          · exact .inl ⟨x, .inl hx, rfl⟩
          · exact .inl ⟨⟨min i u32Max, t⟩, .inr ⟨rfl, hout⟩, rfl⟩
          · exact .inr ⟨⟨i, hi⟩, hmetric, hout⟩
      · simp only [Function.update_of_ne hm, mem_cons, Prod.mk.injEq]
        refine or_congr Iff.rfl (and_congr_left fun happlies => ?_)
        refine exists_congr fun i => ⟨.inr, fun h => h.resolve_left ?_⟩
        rintro ⟨rfl, _⟩
        exact hm happlies.1.symm
  have hlisted : (∃ seq, (t, seq) ∈ rules.zipIdx) ↔ t ∈ rules := by
    rw [mem_iff_getElem?]
    exact exists_congr fun seq => mem_zipIdx_iff_getElem?
  rw [handedOut, mem_map, ← hlisted]
  refine (hfold rules.zipIdx fun _ => none).trans ?_
  simp [MetricRules.mem_candidates, MetricRules.empty]

/-- What a resolution looks at: the rules handed out that apply. -/
theorem resolve_eq (c : AlertConfig) (node : NodeId) (ifindex : Option IfIndex)
    (rowName : Option RowText) (metric : CheckName) :
    c.resolve node ifindex rowName metric =
      resolveMatched ((c.handedOut node ifindex metric).filter fun t =>
        thresholdApplies t node ifindex rowName (c.metaOf node)) (c.metaOf node) := by
  unfold resolve handedOut
  cases c.byMetric metric with
  | none =>
    have hnone : MetricRules.empty.candidates node ifindex = [] := by
      cases ifindex <;> rfl
    simp only [Option.getD_none, hnone]
    rfl
  | some rules => rfl

end AlertConfig

/-! ### The reference -/

/-- What resolving a check means, without an index: every rule of the metric is asked whether
it applies. -/
def resolveReference (rules : List StoredThreshold) (nodeMeta : Option NodeMeta) (node : NodeId)
    (ifindex : Option IfIndex) (rowName : Option RowText) (metric : CheckName) :
    Option EffectiveThreshold :=
  resolveMatched (rules.filter fun t => decide (t.rule.metric = metric) &&
    thresholdApplies t node ifindex rowName nodeMeta) nodeMeta

theorem resolve_eq_reference (rules : List StoredThreshold) (nodeMeta : List (NodeId × NodeMeta))
    (node : NodeId) (ifindex : Option IfIndex) (rowName : Option RowText) (metric : CheckName) :
    (new rules nodeMeta).resolve node ifindex rowName metric
      = resolveReference rules (nodeMeta.lookup node) node ifindex rowName metric := by
  rw [resolve_eq]
  show resolveMatched _ (nodeMeta.lookup node) = _
  refine resolveMatched_congr ?_ metric ?_ _
  · intro t
    simp only [mem_filter, mem_handedOut_new, Bool.and_eq_true, decide_eq_true_eq]
    constructor
    · rintro ⟨⟨ht, hm, _⟩, happ⟩
      exact ⟨ht, hm, happ⟩
    · rintro ⟨ht, hm, happ⟩
      exact ⟨⟨ht, hm, handedOut_of_applies happ⟩, happ⟩
  · intro t ht
    exact (mem_handedOut_new.1 (mem_filter.1 ht).1).2.1

/-- The index changes nothing: resolving through it is resolving over all the rules, and the
order the rules are listed in does not matter. -/
theorem indexed_resolve_exact (rules : List StoredThreshold)
    (nodeMeta : List (NodeId × NodeMeta)) (node : NodeId) (ifindex : Option IfIndex)
    (rowName : Option RowText) (metric : CheckName) :
    (new rules nodeMeta).resolve node ifindex rowName metric
      = resolveReference rules (nodeMeta.lookup node) node ifindex rowName metric ∧
    ∀ rules' : List StoredThreshold, rules'.Perm rules →
      (new rules' nodeMeta).resolve node ifindex rowName metric
        = (new rules nodeMeta).resolve node ifindex rowName metric := by
  refine ⟨resolve_eq_reference .., ?_⟩
  intro rules' hperm
  rw [resolve_eq_reference rules', resolve_eq_reference rules]
  refine resolveMatched_congr ((SameMembers.of_perm hperm).filter _) metric ?_ _
  intro t ht
  have := (mem_filter.1 ht).2
  simp only [Bool.and_eq_true, decide_eq_true_eq] at this
  exact this.1

/-- Three rules for a metric: one for every node, one that names node 1 twice, and one that
names node 1 beside a target that is no id. -/
def overlappingRules : List StoredThreshold :=
  let rule (level : ScopeLevel) (scopeIds : List ScopeId) (critical : ℚ) : StoredThreshold :=
    ⟨level, scopeIds, ⟨.metric (.series "cpu"), .above none (some (.finite critical)), 1⟩, none⟩
  [rule .global [] 95, rule .node [.canonical 1, .canonical 1] 90,
    rule .node [.canonical 1, .text "spare"] 80]

/-- Listed the other way round, they make the same threshold for node 1. -/
theorem overlapping_rules_reversed :
    overlappingRules.reverse.Perm overlappingRules ∧
      (new overlappingRules.reverse []).resolve 1 none none (.metric (.series "cpu"))
        = (new overlappingRules []).resolve 1 none none (.metric (.series "cpu")) ∧
      (new overlappingRules []).resolve 1 none none (.metric (.series "cpu"))
        = some ⟨.metric (.series "cpu"), .above none (some (.finite 80)), 1⟩ :=
  have hperm := overlappingRules.reverse_perm
  ⟨hperm, (indexed_resolve_exact overlappingRules [] 1 none none _).2 _ hperm, by decide +kernel⟩

end Yagra
