import Yagra.Topology.Grouping

/-!
# `Yagra.Proofs.Grouping`: regions are components, and the table is exact

`mem_region_iff` reads the walk of `region` as reachability through down nodes along
`Linked`, the links and sites a level accepts. `Linked` is symmetric, because a `LinkGraph`
carries that its links are. So the regions of the down nodes are the classes of an
equivalence, and `region_eq_of_mem` follows.

`attributeDown_eq_rootCause` is the main result: the table built with one walk per region
agrees with `rootCause` at every node. The alert engine sets an alert's root cause from
`rootCause` when it fires and from the table when it re-attributes, and this is why the two
never differ.

`rootCause_congr` compares two down sets that differ only in nodes the graph does not
mention. Such a node is nobody's neighbour and in nobody's region, so no other node's root
cause sees the difference.
-/

set_option autoImplicit false

namespace Yagra.Topology.LinkGraph

open Yagra.Lib Relation List
open OrdSet (mem_toList ofList)

variable (g : LinkGraph)

/-- A walk at `level` goes from `a` to `b`: by a physical link, by a logical link where the
level follows those, or because both are filed under one site. -/
def Linked (level : Level) (a b : NodeId) : Prop :=
  b ∈ g.physical a ∨ (walksLogical level = true ∧ b ∈ g.logical a) ∨
    (level = .site ∧ ∃ s, g.site a = some s ∧ g.site b = some s)

variable {level : Level} {a b m n node start : NodeId} {down down' : OrdSet NodeId}

theorem Linked.symm {g : LinkGraph} (h : g.Linked level a b) : g.Linked level b a := by
  rcases h with h | ⟨hl, h⟩ | ⟨hl, s, ha, hb⟩
  · exact .inl (g.physical_symm a b h)
  · exact .inr (.inl ⟨hl, g.logical_symm a b h⟩)
  · exact .inr (.inr ⟨hl, s, hb, ha⟩)

/-- The down members of every site already walked have been seen. -/
def SitesCovered (down : OrdSet NodeId) (sitesWalked : OrdSet GroupId)
    (seen : OrdSet NodeId) : Prop :=
  ∀ s ∈ sitesWalked, ∀ m, g.site m = some s → m ∈ down → m ∈ seen

/-- What `visit` lists, away from the site level or for a node without a site: its links. -/
theorem visit_links (h : level ≠ .site ∨ g.site n = none) (w : OrdSet GroupId) :
    g.visit level w n = (w, (g.physical n).toList
      ++ (if walksLogical level then (g.logical n).toList else [])) := by
  unfold visit
  cases level <;> cases hs : g.site n <;> simp_all

/-- What `visit` lists at the site level for a node of a site: its links, and the members of
the site unless the site was walked before. -/
theorem visit_site {s : GroupId} (hs : g.site n = some s) (w : OrdSet GroupId) :
    g.visit .site w n =
      if s ∈ w then (w, (g.physical n).toList ++ (g.logical n).toList)
      else (w.insert s, (g.physical n).toList ++ (g.logical n).toList
        ++ (g.siteMembers s).toList) := by
  simp [visit, hs, walksLogical]

theorem mem_links_iff :
    m ∈ (g.physical n).toList ++ (if walksLogical level then (g.logical n).toList else [])
      ↔ m ∈ g.physical n ∨ (walksLogical level = true ∧ m ∈ g.logical n) := by
  cases walksLogical level <;> simp [mem_toList]

/-- `visit` lists what a walk along `Linked` needs: a site left out was walked before. -/
theorem explores (level : Level) (down : OrdSet NodeId) :
    Explores (g.visit level) (fun m => decide (m ∈ down)) (g.Linked level)
      (g.SitesCovered down) where
  sound := by
    intro w n m hm
    by_cases h : level = .site ∧ ∃ s, g.site n = some s
    · obtain ⟨rfl, s, hs⟩ := h
      rw [g.visit_site hs] at hm
      split at hm
      · rcases mem_append.1 hm with hm | hm
        · exact .inl hm
        · exact .inr (.inl ⟨rfl, hm⟩)
      · rcases mem_append.1 hm with hm | hm
        · rcases mem_append.1 hm with hm | hm
          · exact .inl hm
          · exact .inr (.inl ⟨rfl, hm⟩)
        · exact .inr (.inr ⟨rfl, s, hs, (g.site_spec m s).1 hm⟩)
    · rw [g.visit_links (by cases hs : g.site n <;> simp_all)] at hm
      exact (g.mem_links_iff.1 hm).imp id .inl
  complete := by
    intro w seen n m hcov hedge hkeep
    have hdown : m ∈ down := of_decide_eq_true hkeep
    by_cases h : level = .site ∧ ∃ s, g.site n = some s
    · obtain ⟨rfl, s, hs⟩ := h
      rw [g.visit_site hs]
      rcases hedge with he | ⟨_, he⟩ | ⟨_, s', hn, hm⟩
      · right; split <;> simp [mem_toList, he]
      · right; split <;> simp [mem_toList, he]
      · obtain rfl : s = s' := Option.some.inj (hs.symm.trans hn)
        split
        next hw => exact .inl (hcov s hw m hm hdown)
        · exact .inr (mem_append_right _ ((g.site_spec m s).2 hm))
    · rw [g.visit_links (by cases hs : g.site n <;> simp_all)]
      refine .inr (g.mem_links_iff.2 ?_)
      rcases hedge with he | he | ⟨hl, s, hn, _⟩
      · exact .inl he
      · exact .inr he
      · exact absurd ⟨hl, s, hn⟩ h
  next := by
    intro w seen seen' n hcov hsub hlisted
    by_cases h : level = .site ∧ ∃ s, g.site n = some s
    · obtain ⟨rfl, s, hs⟩ := h
      rw [g.visit_site hs] at hlisted ⊢
      split
      · exact fun s' hs' m hm hd => hsub m (hcov s' hs' m hm hd)
      next hw =>
        rw [if_neg hw] at hlisted
        intro s' hs' m hm hd
        rcases OrdSet.mem_insert.1 hs' with rfl | hs'
        · exact hlisted m (mem_append_right _ ((g.site_spec m s').2 hm)) (by simpa)
        · exact hsub m (hcov s' hs' m hm hd)
    · rw [g.visit_links (by cases hs : g.site n <;> simp_all)]
      exact fun s' hs' m hm hd => hsub m (hcov s' hs' m hm hd)

/-! ### Regions -/

/-- A region is what is reachable from its start through down nodes. -/
theorem mem_region_iff :
    m ∈ g.region start level down
      ↔ ReflTransGen (fun a b => g.Linked level a b ∧ b ∈ down) start m := by
  unfold region
  have hspace : ∀ m, decide (m ∈ down) = true → m ∈ down.toList := by simp [mem_toList]
  rw [walk_mem_iff (g.explores level down) hspace le_rfl (by simp [SitesCovered])]
  simp only [decide_eq_true_eq]

theorem mem_region_self (start : NodeId) (level : Level) (down : OrdSet NodeId) :
    start ∈ g.region start level down :=
  (g.mem_region_iff).2 .refl

/-- A region grown from a down node holds down nodes only. -/
theorem mem_down_of_mem_region (hstart : start ∈ down) (hm : m ∈ g.region start level down) :
    m ∈ down := by
  rcases (g.mem_region_iff.1 hm).cases_tail with h | ⟨_, _, h⟩
  · exact h ▸ hstart
  · exact h.2

/-- Reachability through down nodes can be walked back to a down start. -/
theorem reach_symm (ha : a ∈ down)
    (h : ReflTransGen (fun a b => g.Linked level a b ∧ b ∈ down) a b) :
    ReflTransGen (fun a b => g.Linked level a b ∧ b ∈ down) b a := by
  induction h with
  | refl => exact .refl
  | @tail b c hab hbc ih =>
    have hb : b ∈ down := by
      rcases hab.cases_tail with h | ⟨_, _, h⟩
      · exact h ▸ ha
      · exact h.2
    exact ReflTransGen.head ⟨hbc.1.symm, hb⟩ ih

/-- A region grown from any of its nodes is the same region. -/
theorem region_eq_of_mem (hstart : start ∈ down) (hm : m ∈ g.region start level down) :
    g.region m level down = g.region start level down := by
  have hsm := g.mem_region_iff.1 hm
  ext a
  rw [g.mem_region_iff, g.mem_region_iff]
  exact ⟨fun h => hsm.trans h, fun h => (g.reach_symm hstart hsm).trans h⟩

/-! ### The table -/

/-- The speaker a node is attributed to at its level, when the region is looked at. -/
def speakerFor (down : OrdSet NodeId) (level : Level) (node : NodeId) : Option NodeId :=
  g.speaker (g.region node level down) level down

/-- The root cause of a down node, in terms of its speaker. -/
theorem rootCause_of_mem (hdown : node ∈ down) :
    g.rootCause node down =
      if g.pagesAlone node (g.levelOf node) down then none
      else (g.speakerFor down (g.levelOf node) node).filter (fun s => s ≠ node) := by
  simp only [rootCause, hdown, not_true, if_false, speakerFor]

/-- A node that is not down has no root cause. -/
theorem rootCause_of_notMem (hdown : node ∉ down) : g.rootCause node down = none := by
  simp only [rootCause, hdown, not_false_eq_true, if_true]

/-- A region holds its start, so it always has a speaker. -/
theorem speakerFor_ne_none (down : OrdSet NodeId) (level : Level) (node : NodeId) :
    g.speakerFor down level node ≠ none := by
  intro h
  have hmem := g.mem_region_self node level down
  simp only [speakerFor, speaker, argmin_eq_none] at h
  split at h
  · simp [← mem_toList, h] at hmem
  next hb => simp [h] at hb

/-- The table with `node` attributed to its speaker `s`. -/
def withCause (out : NodeId → Option NodeId) (node s : NodeId) : NodeId → Option NodeId :=
  if s ≠ node then Function.update out node (some s) else out

/-- What one node does to the table: nothing when it pages alone; otherwise its speaker,
remembered or computed now, is entered for it. -/
theorem attributeStep_cases (down : OrdSet NodeId) (acc : Attribution) (node : NodeId) :
    (g.pagesAlone node (g.levelOf node) down = true ∧ g.attributeStep down acc node = acc) ∨
    (g.pagesAlone node (g.levelOf node) down = false ∧
      ∃ s, acc.speakerOf (g.levelOf node, node) = some s ∧
        g.attributeStep down acc node = { acc with out := withCause acc.out node s }) ∨
    (g.pagesAlone node (g.levelOf node) down = false ∧
      ∃ s, g.speakerFor down (g.levelOf node) node = some s ∧
        g.attributeStep down acc node =
          { speakerOf := fun k =>
              if k.1 = g.levelOf node ∧ k.2 ∈ g.region node (g.levelOf node) down then some s
              else acc.speakerOf k
            out := withCause acc.out node s }) := by
  simp only [attributeStep]
  split
  next halone => exact .inl ⟨halone, rfl⟩
  next halone =>
    have halone : g.pagesAlone node (g.levelOf node) down = false := by simpa using halone
    split
    next s hs => exact .inr (.inl ⟨halone, s, hs, rfl⟩)
    · split
      next hs => exact absurd hs (g.speakerFor_ne_none down (g.levelOf node) node)
      next s hs => exact .inr (.inr ⟨halone, s, hs, rfl⟩)

/-- What the loop of `attributeDown` has built after the nodes `done`: the remembered
speakers are right, and the root causes are those of the nodes done. -/
structure AttributionOk (down : OrdSet NodeId) (done : List NodeId) (acc : Attribution) :
    Prop where
  speakers : ∀ level m s, acc.speakerOf (level, m) = some s → g.speakerFor down level m = some s
  causes : ∀ n, acc.out n = if n ∈ done then g.rootCause n down else none

variable {acc : Attribution} {done : List NodeId}

/-- Entering a node's speaker completes the table for the node. -/
theorem AttributionOk.withCause {g : LinkGraph} {s : NodeId} (hok : g.AttributionOk down done acc)
    (hdown : node ∈ down) (halone : g.pagesAlone node (g.levelOf node) down = false)
    (hs : g.speakerFor down (g.levelOf node) node = some s) (n : NodeId) :
    LinkGraph.withCause acc.out node s n
      = if n ∈ done ++ [node] then g.rootCause n down else none := by
  have hrc : g.rootCause node down = if s ≠ node then some s else none := by
    rw [g.rootCause_of_mem hdown, halone, hs]
    by_cases hne : s = node <;> simp [hne]
  by_cases hn : n = node
  · subst hn
    simp only [LinkGraph.withCause, mem_append, mem_singleton, or_true, if_true, hrc]
    split
    · simp
    next hne =>
      -- The node speaks for its own region: it has no root cause, and the table has none.
      rw [hok.causes n, hrc]
      split <;> rfl
  · have : LinkGraph.withCause acc.out node s n = acc.out n := by
      unfold LinkGraph.withCause
      split
      · exact Function.update_of_ne hn _ _
      · rfl
    rw [this, hok.causes n]
    simp [hn]

/-- One node of the loop keeps the table right. A remembered speaker is the node's own
speaker, because the region it was computed for is the node's region. -/
theorem attributionOk_step (hdown : node ∈ down) (hok : g.AttributionOk down done acc) :
    g.AttributionOk down (done ++ [node]) (g.attributeStep down acc node) := by
  rcases g.attributeStep_cases down acc node with
    ⟨halone, he⟩ | ⟨halone, s, hs, he⟩ | ⟨halone, s, hs, he⟩ <;> rw [he]
  · refine ⟨hok.speakers, fun n => ?_⟩
    have hnone : g.rootCause node down = none := by
      rw [g.rootCause_of_mem hdown, halone, if_pos rfl]
    rw [hok.causes n]
    by_cases hn : n = node
    · subst hn; simp [hnone]
    · simp [hn]
  · exact ⟨hok.speakers, hok.withCause hdown halone (hok.speakers _ _ _ hs)⟩
  · refine ⟨?_, hok.withCause hdown halone hs⟩
    intro level m s' h
    simp only at h
    split at h
    next hm =>
      obtain ⟨rfl, hm⟩ := hm
      cases h
      rw [speakerFor, g.region_eq_of_mem hdown hm]
      exact hs
    · exact hok.speakers level m s' h

/-- The table agrees with `rootCause` at every node. -/
theorem attributeDown_eq_rootCause (down : OrdSet NodeId) (n : NodeId) :
    g.attributeDown down n = g.rootCause n down := by
  have hfold : ∀ (rest done : List NodeId) (acc : Attribution),
      (∀ m ∈ rest, m ∈ down) → g.AttributionOk down done acc →
      g.AttributionOk down (done ++ rest) (rest.foldl (g.attributeStep down) acc) := by
    intro rest
    induction rest with
    | nil => intro done acc _ hok; simpa using hok
    | cons m rest ih =>
      intro done acc hmem hok
      have := ih (done ++ [m]) (g.attributeStep down acc m)
        (fun x hx => hmem x (mem_cons_of_mem m hx))
        (g.attributionOk_step (hmem m mem_cons_self) hok)
      simpa using this
  have hok := hfold down.toList [] ⟨fun _ => none, fun _ => none⟩ (fun _ h => h) ⟨by simp, by simp⟩
  have := hok.causes n
  simp only [nil_append] at this
  rw [attributeDown, this]
  by_cases hn : n ∈ down
  · rw [if_pos (mem_toList.2 hn)]
  · rw [if_neg (fun h => hn (mem_toList.1 h)), g.rootCause_of_notMem hn]

/-- Grouping in bulk is grouping one by one. The table answers as `rootCause` does at every
node, and two down nodes a walk connects have one region and one speaker between them. -/
theorem bulk_grouping_exact (down : OrdSet NodeId) :
    (∀ n, g.attributeDown down n = g.rootCause n down) ∧
    ∀ (level : Level) (a b : NodeId), a ∈ down → b ∈ g.region a level down →
      g.region b level down = g.region a level down ∧
      g.speaker (g.region b level down) level down
        = g.speaker (g.region a level down) level down := by
  refine ⟨g.attributeDown_eq_rootCause down, ?_⟩
  intro level a b ha hb
  have hregion := g.region_eq_of_mem ha hb
  exact ⟨hregion, by rw [hregion]⟩

/-- Three nodes, `1` and `2` cabled and `2` and `3` filed under one site. The walk at the site
level connects `1` and `3`, and either end grows the same region. -/
theorem bulk_grouping_exact_three :
    let g := (((LinkGraph.new .site).addLink 1 2 true).setSite 2 9).setSite 3 9
    let down := ofList [1, 2, 3]
    (1 ∈ down ∧ 3 ∈ g.region 1 .site down) ∧ g.region 3 .site down = g.region 1 .site down :=
  have hconn : 1 ∈ ofList [1, 2, 3] ∧
      3 ∈ ((((LinkGraph.new .site).addLink 1 2 true).setSite 2 9).setSite 3 9).region 1 .site
        (ofList [1, 2, 3]) := by decide +kernel
  ⟨hconn, ((bulk_grouping_exact _ _).2 .site 1 3 hconn.1 hconn.2).1⟩

/-! ### Nodes the graph does not mention -/

/-- A node without a link and without a site. -/
def Isolated (n : NodeId) : Prop :=
  g.physical n = ∅ ∧ g.logical n = ∅ ∧ g.site n = none

/-- Whatever is linked to something is not isolated, because links go both ways. -/
theorem Linked.not_isolated {g : LinkGraph} (h : g.Linked level a b) : ¬ g.Isolated b := by
  rintro ⟨hp, hl, hs⟩
  rcases h.symm with h | ⟨_, h⟩ | ⟨_, s, hb, _⟩
  · simp [hp] at h
  · simp [hl] at h
  · simp [hs] at hb

/-- A neighbour a node is judged by is not isolated. -/
theorem not_isolated_of_linksAt {links : OrdSet NodeId} (h : g.linksAt node level = some links)
    (hm : m ∈ links) : ¬ g.Isolated m := by
  have hlinked : m ∈ g.physical node ∨ m ∈ g.logical node := by
    unfold linksAt at h
    cases level <;> by_cases hp : g.physical node = ∅ <;> by_cases hl : g.logical node = ∅ <;>
      simp_all
  rcases hlinked with h | h
  · exact Linked.not_isolated (show g.Linked .links node m from .inl h)
  · exact Linked.not_isolated (show g.Linked .links node m from .inr (.inl ⟨rfl, h⟩))

section

variable (h : ∀ m, ¬ g.Isolated m → (m ∈ down ↔ m ∈ down'))

include h

/-- Two down sets that agree on the nodes the graph mentions give every node the same live
neighbours. -/
theorem touchesALiveNode_congr (node : NodeId) (level : Level) :
    g.touchesALiveNode node level down = g.touchesALiveNode node level down' := by
  unfold touchesALiveNode
  cases hl : g.linksAt node level with
  | none => rfl
  | some links =>
    simp only [Option.any_some]
    rw [Bool.eq_iff_iff]
    simp only [any_eq_true, decide_eq_true_eq]
    refine exists_congr fun m => and_congr_right fun hm => ?_
    rw [h m (g.not_isolated_of_linksAt hl hm)]

/-- Two down sets that agree on the nodes the graph mentions give the same regions. -/
theorem region_congr (start : NodeId) (level : Level) :
    g.region start level down = g.region start level down' := by
  have hstep : (fun a b => g.Linked level a b ∧ b ∈ down)
      = fun a b => g.Linked level a b ∧ b ∈ down' := by
    funext a b
    exact propext (and_congr_right fun hab => h b hab.not_isolated)
  ext m
  rw [g.mem_region_iff, g.mem_region_iff, hstep]

/-- A node's root cause only looks at the node itself and at the nodes the graph mentions. -/
theorem rootCause_congr (hnode : node ∈ down ↔ node ∈ down') :
    g.rootCause node down = g.rootCause node down' := by
  have hspeaker : ∀ (region : OrdSet NodeId) (level : Level),
      g.speaker region level down = g.speaker region level down' := by
    intro region level
    simp only [speaker, g.touchesALiveNode_congr h]
  by_cases hd : node ∈ down
  · rw [g.rootCause_of_mem hd, g.rootCause_of_mem (hnode.1 hd)]
    rw [pagesAlone, pagesAlone, speakerFor, speakerFor, g.touchesALiveNode_congr h,
      g.region_congr h, hspeaker]
  · rw [g.rootCause_of_notMem hd, g.rootCause_of_notMem (mt hnode.2 hd)]

end

end Yagra.Topology.LinkGraph
